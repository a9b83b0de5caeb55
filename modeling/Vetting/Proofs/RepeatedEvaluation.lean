import Vetting.Proofs.NestedRules
import Mathlib.Logic.Relation

/-!
# Evaluating a field more than once

A field is evaluated at its own turn and once more for every validator that depends on it, and each
time its modules run on what they have left of its value. Nobody else writes into the field, so that
the values it takes during a run are linked by passes of its own modules (`Later`, which whole
evaluations obey). Its modules are `Steady` if a second pass neither changes whether they report
errors nor, without errors, the value. Of two evaluations of one field, one after the other, the
second finds errors exactly when the first does, provided that the modules of the field and of all
fields that it depends on are steady, and that nothing is computed from the record
(`judge_agrees`). It is enough that they are steady from the values on that the fields have at some
start, before both (`judge_agrees_from`). The two evaluations may have other fields in progress and
happen any number of evaluations apart; the induction is on the declared fields that are not in
progress at the first.
-/

set_option autoImplicit false

namespace Vetting

/-- Putting a value into a field leaves the other fields as they read. -/
theorem Fields.read_put_of_ne (record : Record) {name other : String} (v : Value)
    (hne : other ≠ name) : (record.put name v).read other = record.read other := by
  rw [Fields.read, Fields.get?_put_of_ne record v hne, Fields.read]

/-- Nothing comes of merging only if nothing is merged into nothing. -/
theorem Fields.merge_eq_nil {α : Type} {fields news : Fields α} :
    fields.merge news = [] ↔ fields = [] ∧ news = [] := by
  have hput : ∀ (fields : Fields α) (name : String) (value : α), fields.put name value ≠ [] := by
    intro fields name value
    cases fields with
    | nil => simp [Fields.put]
    | cons entry rest =>
      rw [Fields.put]
      split <;> simp
  constructor
  · intro h
    induction news generalizing fields with
    | nil => exact ⟨h, rfl⟩
    | cons entry rest ih => exact absurd (ih h).1 (hput fields entry.1 entry.2)
  · rintro ⟨rfl, rfl⟩
    rfl

/-- Whether a field has no errors, be it reported or not. -/
def FieldResult.isClean : FieldResult → Bool
  | .valid => true
  | .checked report => report.errors.isEmpty

/-- Plain parameters are bound alike on every record. -/
theorem Spec.Plain.bind_eq {spec : Spec} (h : spec.Plain) (r r' : Record) :
    spec.bind r = spec.bind r' := by
  refine List.map_congr_left fun param hparam => ?_
  cases param with
  | literal v => rfl
  | computed hook => exact absurd hparam (h.values hook)
  | dependsOn field => rfl
  | predicate hook => rfl

/-- A plain expectation is the same on every record. -/
theorem Spec.Plain.expectedResult_eq {spec : Spec} (h : spec.Plain) (r r' : Record)
    (arguments : Arguments) :
    spec.expectedResult r arguments = spec.expectedResult r' arguments := by
  unfold Spec.expectedResult
  cases hexpected : spec.expected with
  | none => rfl
  | some expectation =>
    cases expectation with
    | literal b => rfl
    | computed hook => exact absurd hexpected (h.expected hook)

namespace Engine

variable {σ : Type} {engine : Engine σ} {nested : NestedValidation σ} {rules : Fields Rule}

/-! ## The values that a field takes -/

/-- A pass of the modules of a field takes one value of it to another; it is clean if the modules
report no errors. -/
def Passes (engine : Engine σ) (nested : NestedValidation σ) (field : String) (rule : Rule)
    (v v' : Value) (clean : Bool) : Prop :=
  ∃ s results t,
    engine.runModules nested field rule.canonical rule.canonical.modules .empty s =
      .ok results t ∧
    s.target.read field = v ∧ t.target.read field = v' ∧ results.errors.isEmpty = clean

/-- The modules of a field take one value of it to another in any number of passes. -/
abbrev Becomes (engine : Engine σ) (nested : NestedValidation σ) (field : String) (rule : Rule) :
    Value → Value → Prop :=
  Relation.ReflTransGen fun v w => ∃ clean, engine.Passes nested field rule v w clean

/-- The modules of a field are steady: a second pass, on what the first one has left, reports errors
exactly when the first one does, and without errors leaves the value as it is. -/
def Steady (engine : Engine σ) (nested : NestedValidation σ) (field : String) (rule : Rule) :
    Prop :=
  ∀ v v' v'' clean clean', engine.Passes nested field rule v v' clean →
    engine.Passes nested field rule v' v'' clean' →
      clean' = clean ∧ (clean = true → v'' = v')

/-- However many passes come after a pass of steady modules, they are as clean, and a clean pass
leaves the value for good. -/
theorem Steady.kept {field : String} {rule : Rule} (hsteady : engine.Steady nested field rule)
    {v v' w : Value} {clean : Bool} (hfirst : engine.Passes nested field rule v v' clean)
    (hbetween : engine.Becomes nested field rule v' w) :
    ∃ u, engine.Passes nested field rule u w clean ∧ (clean = true → w = v') := by
  induction hbetween with
  | refl => exact ⟨v, hfirst, fun _ => rfl⟩
  | tail _ hstep ih =>
    obtain ⟨u, hpass, hkept⟩ := ih
    obtain ⟨clean', hnext⟩ := hstep
    obtain ⟨rfl, hvalue⟩ := hsteady _ _ _ _ _ hpass hnext
    refine ⟨_, hnext, fun hclean => ?_⟩
    rw [hvalue hclean, hkept hclean]

/-- A steady field finds errors in a later pass exactly when it did in the first, and without errors
keeps its value. -/
theorem Steady.again {field : String} {rule : Rule} (hsteady : engine.Steady nested field rule)
    {v v' w w' : Value} {clean clean' : Bool} (hfirst : engine.Passes nested field rule v v' clean)
    (hbetween : engine.Becomes nested field rule v' w)
    (hlast : engine.Passes nested field rule w w' clean') :
    clean' = clean ∧ (clean = true → w' = v') := by
  obtain ⟨u, hpass, hkept⟩ := hsteady.kept hfirst hbetween
  obtain ⟨hclean, hvalue⟩ := hsteady u w w' clean clean' hpass hlast
  refine ⟨hclean, fun h => ?_⟩
  rw [hvalue h, hkept h]

/-- From a value on, all passes of the modules of a field are as clean as the first one, and if that
one is clean, they leave the value that it has left. -/
def SteadyFrom (engine : Engine σ) (nested : NestedValidation σ) (field : String) (rule : Rule)
    (v : Value) : Prop :=
  ∀ v' w w' clean clean', engine.Passes nested field rule v v' clean →
    engine.Becomes nested field rule v' w → engine.Passes nested field rule w w' clean' →
      clean' = clean ∧ (clean = true → w' = v')

/-- A steady field is steady from every value on. -/
theorem Steady.steadyFrom {field : String} {rule : Rule} (hsteady : engine.Steady nested field rule)
    (v : Value) : engine.SteadyFrom nested field rule v :=
  fun _ _ _ _ _ hfirst hbetween hlast => hsteady.again hfirst hbetween hlast

/-- Of two passes, one after the other, after any number of passes from such a value on, the second
is as clean as the first. -/
theorem SteadyFrom.again {field : String} {rule : Rule} {start v v' w w' : Value}
    {clean clean' : Bool} (hsteady : engine.SteadyFrom nested field rule start)
    (hbefore : engine.Becomes nested field rule start v)
    (hfirst : engine.Passes nested field rule v v' clean)
    (hbetween : engine.Becomes nested field rule v' w)
    (hlast : engine.Passes nested field rule w w' clean') :
    clean' = clean ∧ (clean = true → w' = v') := by
  rcases Relation.ReflTransGen.cases_head hbefore with rfl | ⟨u, ⟨clean₀, hpass⟩, hrest⟩
  · exact hsteady _ _ _ _ _ hfirst hbetween hlast
  · obtain ⟨rfl, hvalue⟩ := hsteady _ _ _ _ _ hpass hrest hfirst
    obtain ⟨rfl, hvalue'⟩ := hsteady _ _ _ _ _ hpass ((hrest.tail ⟨_, hfirst⟩).trans hbetween) hlast
    exact ⟨rfl, fun hclean => (hvalue' hclean).trans (hvalue hclean).symm⟩

/-- A module runs to the end in its scope, and what it has written goes into the field. -/
theorem runModule_eq_ok_iff {field : String} {rule : CanonicalForm} {config : Configuration}
    {module : Module σ} {s t : Store Record σ} {out : Option Contribution} :
    engine.runModule nested field rule config module s = .ok out t ↔
      ∃ w, module config
          ⟨field, rule, engine.settings.strict, s.target, engine.announced nested⟩
          ⟨none, s.caller⟩ = .ok out w ∧ t = ⟨s.target.putIf field w.target, w.caller⟩ := by
  rw [runModule, Run.target_bind]
  refine Run.focus_eq_ok.trans (exists_congr fun w => and_congr_right fun _ => ?_)
  obtain ⟨written, c⟩ := w
  cases written with
  | none => exact Iff.rfl
  | some v => exact Iff.rfl

/-- One record comes after another in a run: each declared field has been taken from its value in
the one to its value in the other by passes of its modules, and no other field has changed. -/
structure Later (engine : Engine σ) (nested : NestedValidation σ) (rules : Fields Rule)
    (earlier later : Record) : Prop where
  declared : ∀ field rule, rules.get? field = some rule →
    engine.Becomes nested field rule (earlier.read field) (later.read field)
  undeclared : ∀ field, rules.get? field = none → later.read field = earlier.read field

namespace Later

variable {r r' r'' : Record}

/-- A record comes after itself. -/
theorem refl (r : Record) : engine.Later nested rules r r :=
  ⟨fun _ _ _ => .refl, fun _ _ => rfl⟩

/-- What comes after a later record comes after the earlier one. -/
theorem trans (h : engine.Later nested rules r r') (h' : engine.Later nested rules r' r'') :
    engine.Later nested rules r r'' where
  declared field rule hget := (h.declared field rule hget).trans (h'.declared field rule hget)
  undeclared field hget := (h'.undeclared field hget).trans (h.undeclared field hget)

end Later

/-- Runs that take records to later ones and leave some fields alone. -/
def advancing (engine : Engine σ) (nested : NestedValidation σ) (rules : Fields Rule)
    (kept : List String) : Conduct Record σ where
  keeps s t := engine.Later nested rules s.target t.target ∧
    ∀ field ∈ kept, t.target.read field = s.target.read field
  breaks _ _ _ := True
  refl s := ⟨.refl s.target, fun _ _ => rfl⟩
  trans h h' := ⟨h.1.trans h'.1, fun field hfield => (h'.2 field hfield).trans (h.2 field hfield)⟩
  breaks_of_keeps _ _ := trivial

/-- The modules of a field leave all other fields alone. -/
theorem runModules_frame {field : String} {rule : CanonicalForm} {configs : Fields Configuration}
    {results after : Contributions} {s t : Store Record σ}
    (hrun : engine.runModules nested field rule configs results s = .ok after t) {other : String}
    (hne : other ≠ field) : t.target.read other = s.target.read other := by
  let frame : Conduct Record σ :=
    { keeps := fun s t => t.target.read other = s.target.read other
      breaks := fun _ _ _ => True
      refl := fun _ => rfl
      trans := fun h h' => h'.trans h
      breaks_of_keeps := fun _ _ => trivial }
  have hobeys : (engine.runModules nested field rule configs results).Obeys frame := by
    refine runModules_obeys configs (fun entry _ module _ s => ?_) results
    refine Run.ObeysAt.intro (fun out t hout => ?_) fun _ _ _ => trivial
    rw [runModule, Run.target_bind] at hout
    obtain ⟨u, -, rfl⟩ := Run.focus_eq_ok.1 hout
    show Fields.read _ other = _
    cases u.target with
    | none => rfl
    | some v => exact Fields.read_put_of_ne s.target v hne
  exact (hobeys s).keeps hrun

/-- Evaluations take records to later ones, and leave the fields in progress alone once their
modules have run. -/
theorem governed_advancing (hdistinct : rules.Distinct) :
    Governed engine nested rules (fun inProgress => engine.advancing nested rules inProgress)
      (fun inProgress _ => engine.advancing nested rules inProgress) where
  keeps_judging h := ⟨h.1, fun field hfield => h.2 field (List.mem_append_left _ hfield)⟩
  breaks_judging _ := trivial
  enters _ hrun s := by
    refine Run.ObeysAt.intro (fun a t ha => ?_) fun _ _ _ => trivial
    obtain ⟨u, hu, rfl⟩ := during_eq_ok.1 ha
    have hkeeps := (hrun _).keeps hu
    exact hkeeps
  cycles _ _ _ _ := trivial
  misses _ _ _ _ := trivial
  prepares := by
    intro inProgress field rule hwalk hrule s
    refine Run.ObeysAt.intro (fun results t hrun => ?_) fun _ _ _ => trivial
    have hnew : field ∉ inProgress := by
      intro hmem
      exact (List.nodup_append.1 hwalk.nodup).2.2 field hmem field (List.mem_singleton.2 rfl) rfl
    refine ⟨⟨fun other rule' hget => ?_, fun other hget => ?_⟩, fun other hother => ?_⟩
    · by_cases hne : other = field
      · subst hne
        rw [Fields.get?_of_mem hdistinct hrule, Option.some.injEq] at hget
        subst hget
        exact .single ⟨_, s, results, t, hrun, rfl, rfl, rfl⟩
      · rw [runModules_frame hrun hne]
    · refine runModules_frame hrun ?_
      rintro rfl
      rw [Fields.get?_of_mem hdistinct hrule] at hget
      cases hget
    · refine runModules_frame hrun ?_
      rintro rfl
      exact hnew hother
  abandons _ _ _ _ _ _ h := h

/-! ## Two evaluations of one field -/

/-- Two ways to settle a dependency, for validators of one field, agree: both go on to later records
and leave the field alone, and of two settlements, one after the other and both after the start, the
second passes exactly when the first does, with the same value. -/
structure SettledAlike (engine : Engine σ) (nested : NestedValidation σ) (rules : Fields Rule)
    (start : Record) (field : String) (depends depends' : String → Run Record σ Bool) (d : String) :
    Prop where
  obeys : (depends d).Obeys (engine.advancing nested rules [field])
  obeys' : (depends' d).Obeys (engine.advancing nested rules [field])
  agrees : ∀ {s t s' t' passed passed'}, engine.Later nested rules start s.target →
    depends d s = .ok passed t → depends' d s' = .ok passed' t' →
      engine.Later nested rules t.target s'.target →
      passed' = passed ∧ (passed = true → t'.target.read d = t.target.read d)

section Twice

variable {start : Record} {field : String} {depends depends' : String → Run Record σ Bool}
  {s t s' t' : Store Record σ}

/-- Two calls assembled from the same parameters, one after the other, are the same. -/
theorem assembleCall_agrees {params : List BoundParam}
    (halike : ∀ d ∈ params.filterMap BoundParam.dependency?,
      SettledAlike engine nested rules start field depends depends' d)
    {call call' : Except String Call} (hstart : engine.Later nested rules start s.target)
    (hcall : assembleCall depends params s = .ok call t)
    (hcall' : assembleCall depends' params s' = .ok call' t')
    (hlater : engine.Later nested rules t.target s'.target) : call' = call := by
  induction params generalizing s s' call call' with
  | nil =>
    obtain ⟨rfl, -⟩ := Run.pure_eq_ok.1 hcall
    obtain ⟨rfl, -⟩ := Run.pure_eq_ok.1 hcall'
    rfl
  | cons param rest ih =>
    have hrest : ∀ d ∈ rest.filterMap BoundParam.dependency?,
        SettledAlike engine nested rules start field depends depends' d :=
      fun d hd => halike d (mem_dependencies_cons param hd)
    cases param with
    | literal v =>
      obtain ⟨c, u, hc, hmap⟩ := Run.bind_eq_ok.1 hcall
      obtain ⟨c', u', hc', hmap'⟩ := Run.bind_eq_ok.1 hcall'
      obtain ⟨rfl, rfl⟩ := Run.pure_eq_ok.1 hmap
      obtain ⟨rfl, rfl⟩ := Run.pure_eq_ok.1 hmap'
      rw [ih hrest hstart hc hc' hlater]
    | predicate hook =>
      obtain ⟨c, u, hc, hmap⟩ := Run.bind_eq_ok.1 hcall
      obtain ⟨c', u', hc', hmap'⟩ := Run.bind_eq_ok.1 hcall'
      obtain ⟨rfl, rfl⟩ := Run.pure_eq_ok.1 hmap
      obtain ⟨rfl, rfl⟩ := Run.pure_eq_ok.1 hmap'
      rw [ih hrest hstart hc hc' hlater]
    | dependsOn d =>
      have hd := halike d (by simp [BoundParam.dependency?])
      have hobeys := assembleCall_obeys rest fun d hd => (hrest d hd).obeys
      obtain ⟨passed, x, hpassed, hgo⟩ := Run.bind_eq_ok.1 hcall
      obtain ⟨passed', x', hpassed', hgo'⟩ := Run.bind_eq_ok.1 hcall'
      have hx : engine.Later nested rules s.target x.target := ((hd.obeys s).keeps hpassed).1
      have hx' : engine.Later nested rules s'.target x'.target := ((hd.obeys' s').keeps hpassed').1
      cases passed with
      | false =>
        obtain ⟨rfl, rfl⟩ := Run.pure_eq_ok.1 hgo
        obtain ⟨rfl, -⟩ := hd.agrees hstart hpassed hpassed' hlater
        obtain ⟨rfl, rfl⟩ := Run.pure_eq_ok.1 hgo'
        rfl
      | true =>
        simp only [if_true, Run.target_bind] at hgo
        obtain ⟨c, u, hc, hmap⟩ := Run.bind_eq_ok.1 hgo
        obtain ⟨rfl, rfl⟩ := Run.pure_eq_ok.1 hmap
        have hbetween : engine.Later nested rules x.target s'.target :=
          (((hobeys x).keeps hc).1).trans hlater
        obtain ⟨rfl, hvalue⟩ := hd.agrees hstart hpassed hpassed' hbetween
        simp only [if_true, Run.target_bind] at hgo'
        obtain ⟨c', u', hc', hmap'⟩ := Run.bind_eq_ok.1 hgo'
        obtain ⟨rfl, rfl⟩ := Run.pure_eq_ok.1 hmap'
        rw [ih hrest (hstart.trans hx) hc hc' (hlater.trans hx'), hvalue rfl]

/-- Two verdicts of one validator on one value, one after the other, are alike. -/
theorem check_agrees {name : String} {validator : Validator} {spec : Spec} (hplain : spec.Plain)
    (halike : ∀ d ∈ spec.values.filterMap Param.dependency?,
      SettledAlike engine nested rules start field depends depends' d)
    {verdict verdict' : Verdict} (hstart : engine.Later nested rules start s.target)
    (hrun : engine.check depends field name validator spec s = .ok verdict t)
    (hrun' : engine.check depends' field name validator spec s' = .ok verdict' t')
    (hvalue : s'.target.read field = s.target.read field)
    (hlater : engine.Later nested rules t.target s'.target) :
    verdict'.message?.isNone = verdict.message?.isNone := by
  have hbound : ∀ r, ∀ d ∈ (spec.bind r).filterMap BoundParam.dependency?,
      SettledAlike engine nested rules start field depends depends' d := by
    intro r d hd
    rw [Spec.dependencies_bind] at hd
    exact halike d hd
  have hskips := check_eq_ok hrun'
  rw [hvalue] at hskips
  rcases check_eq_ok hrun with ⟨hskip, rfl, rfl⟩ | ⟨hmade, call, u, hcall, htarget, hverdict⟩
  · rcases hskips with ⟨-, rfl, -⟩ | ⟨hmade, -⟩
    · rfl
    · rw [hskip] at hmade
      cases hmade
  · rcases hskips with ⟨hskip, -, -⟩ | ⟨-, call', u', hcall', htarget', hverdict'⟩
    · rw [hmade] at hskip
      cases hskip
    · rw [htarget] at hlater
      rw [hplain.bind_eq s'.target s.target] at hcall'
      have hobeys := assembleCall_obeys (spec.bind s.target) fun d hd => (hbound _ d hd).obeys
      have hobeys' := assembleCall_obeys (spec.bind s.target) fun d hd => (hbound _ d hd).obeys'
      have hsame : call' = call := assembleCall_agrees (hbound _) hstart hcall hcall' hlater
      have hread : u'.target.read field = u.target.read field := by
        rw [((hobeys' s').keeps hcall').2 field (List.mem_singleton.2 rfl), hvalue,
          ((hobeys s).keeps hcall).2 field (List.mem_singleton.2 rfl)]
      subst hsame
      cases call' with
      | error d =>
        simp only at hverdict hverdict'
        rw [hverdict, hverdict']
      | ok call =>
        simp only at hverdict hverdict'
        rw [hverdict, hverdict', hread, hplain.expectedResult_eq u'.target u.target]

/-- The verdicts of the validators of a field, twice on one value, are alike. -/
theorem checkAll_agrees {found : List (String × Validator × Spec)}
    (hplain : ∀ entry ∈ found, entry.2.2.Plain)
    (halike : ∀ entry ∈ found, ∀ d ∈ entry.2.2.values.filterMap Param.dependency?,
      SettledAlike engine nested rules start field depends depends' d)
    {verdicts verdicts' : List (String × Verdict)}
    (hstart : engine.Later nested rules start s.target)
    (hrun : engine.checkAll depends field found s = .ok verdicts t)
    (hrun' : engine.checkAll depends' field found s' = .ok verdicts' t')
    (hvalue : s'.target.read field = s.target.read field)
    (hlater : engine.Later nested rules t.target s'.target) :
    failures verdicts' = [] ↔ failures verdicts = [] := by
  induction found generalizing s s' verdicts verdicts' with
  | nil =>
    obtain ⟨rfl, -⟩ := Run.pure_eq_ok.1 hrun
    obtain ⟨rfl, -⟩ := Run.pure_eq_ok.1 hrun'
    exact Iff.rfl
  | cons entry rest ih =>
    obtain ⟨name, validator, spec⟩ := entry
    have hfirst := halike (name, validator, spec) List.mem_cons_self
    have hrest := fun entry hentry => halike entry (List.mem_cons_of_mem _ hentry)
    obtain ⟨verdict, u, hcheck, hrun⟩ := Run.bind_eq_ok.1 hrun
    obtain ⟨others, w, hothers, hrun⟩ := Run.bind_eq_ok.1 hrun
    obtain ⟨verdict', u', hcheck', hrun'⟩ := Run.bind_eq_ok.1 hrun'
    obtain ⟨others', w', hothers', hrun'⟩ := Run.bind_eq_ok.1 hrun'
    obtain ⟨rfl, rfl⟩ := Run.pure_eq_ok.1 hrun
    obtain ⟨rfl, rfl⟩ := Run.pure_eq_ok.1 hrun'
    have hu := (check_obeys validator (fun d hd => (hfirst d hd).obeys)
      (fun _ _ _ _ _ h => h) s).keeps hcheck
    have hu' := (check_obeys validator (fun d hd => (hfirst d hd).obeys')
      (fun _ _ _ _ _ h => h) s').keeps hcheck'
    have hw := (checkAll_obeys rest (fun entry hentry d hd => (hrest entry hentry d hd).obeys)
      (fun _ _ _ _ _ _ _ h => h) u).keeps hothers
    have hhead : verdict'.message?.isNone = verdict.message?.isNone :=
      check_agrees (hplain (name, validator, spec) List.mem_cons_self) hfirst hstart hcheck hcheck'
        hvalue (hw.1.trans hlater)
    have hread : u'.target.read field = u.target.read field := by
      rw [hu'.2 field (List.mem_singleton.2 rfl), hvalue, hu.2 field (List.mem_singleton.2 rfl)]
    have htail := ih (fun entry hentry => hplain entry (List.mem_cons_of_mem _ hentry)) hrest
      (hstart.trans hu.1) hothers hothers' hread (hlater.trans hu'.1)
    have hsplit : ∀ (verdict : Verdict) (others : List (String × Verdict)),
        failures ((name, verdict) :: others) = [] ↔
          verdict.message?.isNone = true ∧ failures others = [] := by
      intro verdict others
      rw [failures, List.filterMap_cons]
      cases hmessage : verdict.message? with
      | none => simp [failures]
      | some text => simp
    rw [hsplit, hsplit, hhead, htail]

end Twice

/-- Judging a field finds errors when its modules or its validators do. -/
theorem judge_isClean {depends : String → Run Record σ Bool} {field : String} {rule : Rule}
    {force : Bool} {s t : Store Record σ} {result : FieldResult}
    (h : engine.judge nested depends field rule force s = .ok result t) :
    ∃ found results u verdicts, engine.findAll rule.canonical.validators = .ok found ∧
      engine.runModules nested field rule.canonical rule.canonical.modules .empty s =
        .ok results u ∧
      engine.checkAll depends field found u = .ok verdicts t ∧
      (result.isClean = true ↔ failures verdicts = [] ∧ results.errors = []) ∧
      (force = false → result.passes = result.isClean) := by
  obtain ⟨found, results, u, verdicts, hfound, hmodules, hchecks, rfl⟩ := judge_eq_ok.1 h
  refine ⟨found, results, u, verdicts, hfound, hmodules, hchecks, ?_⟩
  rw [← Fields.merge_eq_nil]
  split
  · next hclean =>
    rw [Bool.and_eq_true, List.isEmpty_iff] at hclean
    exact ⟨iff_of_true rfl hclean.2, fun _ => rfl⟩
  · next hfound =>
    refine ⟨List.isEmpty_iff, ?_⟩
    rintro rfl
    rw [Bool.not_false, Bool.true_and] at hfound
    exact (Bool.eq_false_iff.2 hfound).symm

/-- How a dependency is settled: a field without a rule passes, and any other one passes when it is
judged to be without errors. -/
theorem dependencyPasses_eq_ok {inProgress : List String} {d : String} {s t : Store Record σ}
    {passed : Bool} (h : engine.dependencyPasses nested rules inProgress d s = .ok passed t) :
    d ∉ inProgress ∧
    ((rules.get? d = none ∧ passed = true ∧ t.target = s.target) ∨
      ∃ rule s' t' result, rules.get? d = some rule ∧
        engine.judge nested (engine.dependencyPasses nested rules (inProgress ++ [d])) d rule false
          s' = .ok result t' ∧
        s'.target = s.target ∧ t'.target = t.target ∧ passed = result.isClean) := by
  by_cases hmem : d ∈ inProgress
  · rw [dependencyPasses_of_mem hmem] at h
    cases h
  · refine ⟨hmem, ?_⟩
    cases hget : rules.get? d with
    | none =>
      rw [dependencyPasses_undeclared hmem hget] at h
      obtain ⟨u, hu, rfl⟩ := during_eq_ok.1 h
      obtain ⟨rfl, rfl⟩ := Run.pure_eq_ok.1 hu
      exact Or.inl ⟨rfl, rfl, rfl⟩
    | some rule =>
      rw [dependencyPasses_declared hmem hget] at h
      obtain ⟨u, hu, rfl⟩ := during_eq_ok.1 h
      obtain ⟨result, w, hjudge, hpassed⟩ := Run.bind_eq_ok.1 hu
      obtain ⟨rfl, rfl⟩ := Run.pure_eq_ok.1 hpassed
      obtain ⟨_, _, _, _, _, _, _, _, hpasses⟩ := judge_isClean hjudge
      exact Or.inr ⟨rule, _, w, result, rfl, hjudge, rfl, rfl, hpasses rfl⟩

/-- A run that advances the record but for some fields does so but for fewer of them. -/
theorem advancing_mono {α : Type} {run : Run Record σ α} {kept fewer : List String}
    (hfewer : ∀ field ∈ fewer, field ∈ kept) (h : run.Obeys (engine.advancing nested rules kept)) :
    run.Obeys (engine.advancing nested rules fewer) :=
  h.mono (fun hkeeps => ⟨hkeeps.1, fun field hfield => hkeeps.2 field (hfewer field hfield)⟩)
    fun _ => trivial

/-- A dependency is settled alike by two fields in progress if judging it further on agrees. -/
theorem dependencyPasses_alike (hdistinct : rules.Distinct) {inProgress inProgress' : List String}
    {start : Record} {field d : String} (hwalk : Walk rules (inProgress ++ [field]))
    (hwalk' : Walk rules (inProgress' ++ [field])) (hdep : DependsOn rules field d)
    (hjudge : ∀ {rule s t s' t' result result'}, (d, rule) ∈ rules → d ∉ inProgress ++ [field] →
      d ∉ inProgress' ++ [field] → engine.Later nested rules start s.target →
        engine.judge nested (engine.dependencyPasses nested rules (inProgress ++ [field] ++ [d])) d
          rule false s = .ok result t →
        engine.judge nested (engine.dependencyPasses nested rules (inProgress' ++ [field] ++ [d])) d
          rule false s' = .ok result' t' →
        engine.Later nested rules t.target s'.target →
          result'.isClean = result.isClean ∧
            (result.isClean = true → t'.target.read d = t.target.read d)) :
    SettledAlike engine nested rules start field
      (engine.dependencyPasses nested rules (inProgress ++ [field]))
      (engine.dependencyPasses nested rules (inProgress' ++ [field])) d := by
  have hgoverned : engine.Governed nested rules _ _ := governed_advancing hdistinct
  have hkept : ∀ inProgress : List String, ∀ g ∈ [field], g ∈ inProgress ++ [field] :=
    fun inProgress g hg => List.mem_append_right _ hg
  refine ⟨advancing_mono (hkept _) (hgoverned.dependencyPasses_obeys hwalk hdep),
    advancing_mono (hkept _) (hgoverned.dependencyPasses_obeys hwalk' hdep), ?_⟩
  intro s t s' t' passed passed' hstart hpassed hpassed' hlater
  obtain ⟨hnew, hcase⟩ := dependencyPasses_eq_ok hpassed
  obtain ⟨hnew', hcase'⟩ := dependencyPasses_eq_ok hpassed'
  rcases hcase with ⟨hnone, rfl, htarget⟩ | ⟨rule, x, y, result, hsome, hrun, hx, hy, rfl⟩
  · rcases hcase' with ⟨-, rfl, htarget'⟩ | ⟨_, _, _, _, hsome, -⟩
    · refine ⟨rfl, fun _ => ?_⟩
      rw [htarget', hlater.undeclared d hnone]
    · rw [hnone] at hsome
      cases hsome
  · rcases hcase' with ⟨hnone, -⟩ | ⟨rule', x', y', result', hsome', hrun', hx', hy', rfl⟩
    · rw [hsome] at hnone
      cases hnone
    · rw [hsome, Option.some.injEq] at hsome'
      subst hsome'
      rw [← hx] at hstart
      rw [← hy, ← hx'] at hlater
      rw [← hy, ← hy']
      exact hjudge (Fields.mem_of_get? hsome) hnew hnew' hstart hrun hrun' hlater

/-- Validators leave the value of their field as it is if the settling of their dependencies does.
-/
theorem read_of_checkAll {depends : String → Run Record σ Bool} {field : String}
    {found : List (String × Validator × Spec)} {verdicts : List (String × Verdict)}
    {s t : Store Record σ}
    (hdepends : ∀ entry ∈ found, ∀ d ∈ entry.2.2.values.filterMap Param.dependency?,
      (depends d).Obeys (engine.advancing nested rules [field]))
    (h : engine.checkAll depends field found s = .ok verdicts t) :
    t.target.read field = s.target.read field := by
  have hobeys :
      (engine.checkAll depends field found).Obeys (engine.advancing nested rules [field]) :=
    checkAll_obeys found hdepends fun _ _ _ _ _ _ _ h => h
  exact ((hobeys s).keeps h).2 field (List.mem_singleton.2 rfl)

/-- Of two evaluations of a field, the second after the first, the second finds errors exactly when
the first does, and without errors they leave the same value, if the modules of the field are steady
from its value at some start and what it depends on is settled alike. -/
theorem judge_agrees_of_alike (hdistinct : rules.Distinct) {start : Record} {field : String}
    {rule : Rule} (hrule : (field, rule) ∈ rules) (hplain : rule.Plain)
    (hsteady : engine.SteadyFrom nested field rule (start.read field))
    {depends depends' : String → Run Record σ Bool}
    (halike : ∀ d ∈ rule.canonical.dependencies,
      SettledAlike engine nested rules start field depends depends' d)
    {force force' : Bool} {s t s' t' : Store Record σ} {result result' : FieldResult}
    (hstart : engine.Later nested rules start s.target)
    (hrun : engine.judge nested depends field rule force s = .ok result t)
    (hrun' : engine.judge nested depends' field rule force' s' = .ok result' t')
    (hlater : engine.Later nested rules t.target s'.target) :
    result'.isClean = result.isClean ∧
      (result.isClean = true → t'.target.read field = t.target.read field) := by
  have hget := Fields.get?_of_mem hdistinct hrule
  have hgoverned : engine.Governed nested rules _ _ := governed_advancing hdistinct
  have hwalk : Walk rules ([] ++ [field]) := Walk.single field
  obtain ⟨found, results, u, verdicts, hfound, hmodules, hchecks, hclean, -⟩ := judge_isClean hrun
  obtain ⟨found', results', u', verdicts', hfound', hmodules', hchecks', hclean', -⟩ :=
    judge_isClean hrun'
  rw [hfound, Except.ok.injEq] at hfound'
  subst hfound'
  have hsettled : ∀ entry ∈ found, ∀ d ∈ entry.2.2.values.filterMap Param.dependency?,
      SettledAlike engine nested rules start field depends depends' d :=
    fun entry hentry d hd => halike d (mem_dependencies_of_findAll hfound hentry hd)
  have hleft : t.target.read field = u.target.read field :=
    read_of_checkAll (fun entry hentry d hd => (hsettled entry hentry d hd).obeys) hchecks
  have hleft' : t'.target.read field = u'.target.read field :=
    read_of_checkAll (fun entry hentry d hd => (hsettled entry hentry d hd).obeys') hchecks'
  -- From the first pass to the second the value has been through passes of its modules only.
  have hbetween := hlater.declared field rule hget
  rw [hleft] at hbetween
  obtain ⟨hsame, hread⟩ := hsteady.again (hstart.declared field rule hget)
    ⟨s, results, u, hmodules, rfl, rfl, rfl⟩ hbetween
    ⟨s', results', u', hmodules', rfl, rfl, rfl⟩
  have hnone : results'.errors = [] ↔ results.errors = [] := by
    rw [← List.isEmpty_iff, hsame, List.isEmpty_iff]
  have hverdicts : results.errors = [] → (failures verdicts' = [] ↔ failures verdicts = []) := by
    intro hempty
    have hsteps := ((hgoverned.prepares hwalk hrule s).keeps hmodules).1
    have hsteps' := ((hgoverned.prepares hwalk hrule s').keeps hmodules').1
    exact checkAll_agrees (fun entry hentry => hplain _ _ (mem_of_findAll hfound hentry)) hsettled
      (hstart.trans hsteps) hchecks hchecks' (hread (List.isEmpty_iff.2 hempty))
      (hlater.trans hsteps')
  constructor
  · rw [Bool.eq_iff_iff, hclean, hclean', hnone]
    exact and_congr_left hverdicts
  · intro h
    rw [hleft, hleft', hread (List.isEmpty_iff.2 (hclean.1 h).2)]

/-- Of two evaluations of a field, the second after the first, the second finds errors exactly when
the first does, and without errors they leave the same value, if the modules of the field and of
those that it depends on are steady from their values at some start. The induction is on the
declared fields that are not in progress at the first evaluation; it goes to the fields depended on.
-/
theorem judge_agrees_from (hdistinct : rules.Distinct)
    (hplain : ∀ field rule, (field, rule) ∈ rules → rule.Plain)
    {inProgress inProgress' : List String} {start : Record} {field : String} {rule : Rule}
    (hrule : (field, rule) ∈ rules)
    (hsteady : ∀ other rule, Relation.ReflTransGen (DependsOn rules) field other →
      (other, rule) ∈ rules → engine.SteadyFrom nested other rule (start.read other))
    (hwalk : Walk rules (inProgress ++ [field])) (hwalk' : Walk rules (inProgress' ++ [field]))
    {force force' : Bool} {s t s' t' : Store Record σ} {result result' : FieldResult}
    (hstart : engine.Later nested rules start s.target)
    (hrun : engine.judge nested (engine.dependencyPasses nested rules (inProgress ++ [field]))
      field rule force s = .ok result t)
    (hrun' : engine.judge nested (engine.dependencyPasses nested rules (inProgress' ++ [field]))
      field rule force' s' = .ok result' t')
    (hlater : engine.Later nested rules t.target s'.target) :
    result'.isClean = result.isClean ∧
      (result.isClean = true → t'.target.read field = t.target.read field) := by
  induction hidle : (idle rules (inProgress ++ [field])).length using Nat.strong_induction_on
    generalizing inProgress inProgress' field rule force force' s t s' t' result result' with
  | _ n ih =>
    subst hidle
    -- What the field depends on is settled alike: with the field in progress, fewer are idle.
    refine judge_agrees_of_alike hdistinct hrule (hplain field rule hrule)
      (hsteady field rule .refl hrule) (fun d hd => ?_) hstart hrun hrun' hlater
    have hdep : DependsOn rules field d := ⟨rule, hrule, hd⟩
    refine dependencyPasses_alike hdistinct hwalk hwalk' hdep
      fun {rule' _ _ _ _ _ _} hnext hnew hnew' hstart hjudge hjudge' hlater => ?_
    have hsteady' : ∀ other rule, Relation.ReflTransGen (DependsOn rules) d other →
        (other, rule) ∈ rules → engine.SteadyFrom nested other rule (start.read other) :=
      fun other rule hreach hmem => hsteady other rule (hreach.head hdep) hmem
    have hless : (idle rules (inProgress ++ [field] ++ [d])).length <
        (idle rules (inProgress ++ [field])).length :=
      length_idle_lt (List.mem_map.2 ⟨_, hnext, rfl⟩) hnew
    exact ih _ hless hnext hsteady' (hwalk.extend hdep hnew) (hwalk'.extend hdep hnew') hstart
      hjudge hjudge' hlater rfl

/-- Of two evaluations of a field, the second after the first, the second finds errors exactly when
the first does, and without errors they leave the same value, if the modules of the field and of
those that it depends on are steady. -/
theorem judge_agrees (hdistinct : rules.Distinct)
    (hplain : ∀ field rule, (field, rule) ∈ rules → rule.Plain)
    {inProgress inProgress' : List String} {field : String} {rule : Rule}
    (hrule : (field, rule) ∈ rules)
    (hsteady : ∀ other rule, Relation.ReflTransGen (DependsOn rules) field other →
      (other, rule) ∈ rules → engine.Steady nested other rule)
    (hwalk : Walk rules (inProgress ++ [field])) (hwalk' : Walk rules (inProgress' ++ [field]))
    {force force' : Bool} {s t s' t' : Store Record σ} {result result' : FieldResult}
    (hrun : engine.judge nested (engine.dependencyPasses nested rules (inProgress ++ [field]))
      field rule force s = .ok result t)
    (hrun' : engine.judge nested (engine.dependencyPasses nested rules (inProgress' ++ [field]))
      field rule force' s' = .ok result' t')
    (hlater : engine.Later nested rules t.target s'.target) :
    result'.isClean = result.isClean ∧
      (result.isClean = true → t'.target.read field = t.target.read field) :=
  judge_agrees_from hdistinct hplain hrule
    (fun other rule hreach hmem => (hsteady other rule hreach hmem).steadyFrom _) hwalk hwalk'
    (.refl s.target) hrun hrun' hlater

end Engine

end Vetting
