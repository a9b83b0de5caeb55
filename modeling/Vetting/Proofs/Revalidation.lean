import Vetting.Proofs.RecordsAtRest
import Vetting.Proofs.RulesFromData

/-!
# Validating what has been validated

A run may change the record, so that it is not plain that the record it leaves passes once more and
stays as it is. What decides about this are the modules of the fields: where one pass of them does
not bring a field to rest (a default value put in before white space is trimmed away leaves the
field empty, and fills it the next time), the next run works on other values. Where one pass brings
every field to rest (`SettlesOn`), the next run repeats the verdicts of the first: each declared
field has had its own turn, so that the record is at rest when the run is over, and a record at rest
can be evaluated again (`judgeAll_idles`) with the same findings (`judgeAll_agrees`).

The module for nested records begins runs of its own, which have to be stable for their field to
come to rest. `Settles` asks for that at every depth: for the fields of nested records it makes the
same demands, and for the field that holds one it takes the stability of the nested runs for
granted.
-/

set_option autoImplicit false

namespace Vetting

/-! ## The record of a value -/

namespace Rules

/-- The record on which rules are carried out for a value: its fields, or the one that holds it. -/
def recordOf : Rules → Value → Record
  | .fields _, v => Engine.recordOf v
  | .whole _, v => [(wholeField, v)]

/-- What is left of a value when this is left of its record. -/
def valueOf : Rules → Value → Record → Value
  | .fields _, v, record => Engine.withRecord v record
  | .whole _, _, record => record.read wholeField

/-- What is left of the record goes back into the value. It does not into a value without fields. -/
def Carry : Rules → Value → Prop
  | .fields _, v => ∃ members, v = .object members
  | .whole _, _ => True

variable {rules : Rules} {v : Value}

/-- What is left of a value carries a record if the value does. -/
theorem Carry.valueOf (h : rules.Carry v) (record : Record) :
    rules.Carry (rules.valueOf v record) := by
  cases rules with
  | fields fields =>
    obtain ⟨members, rfl⟩ := h
    exact ⟨record, rfl⟩
  | whole descriptor => trivial

/-- A value that carries the record of field rules is not empty. -/
theorem Carry.truthy {fields : Fields Rule} (h : (Rules.fields fields).Carry v) :
    v.isTruthy = true := by
  obtain ⟨members, rfl⟩ := h
  rfl

/-- A declared field that the record has is in the record of the value that is left. -/
theorem Carry.get?_recordOf (h : rules.Carry v) {record : Record} {field : String} {rule : Rule}
    (hrule : (field, rule) ∈ rules.members)
    (hnone : (rules.recordOf (rules.valueOf v record)).get? field = none) :
    record.get? field = none := by
  cases rules with
  | fields fields =>
    obtain ⟨members, rfl⟩ := h
    exact hnone
  | whole descriptor =>
    have hfield : field = wholeField := congrArg Prod.fst (List.mem_singleton.1 hrule)
    rw [hfield] at hnone
    cases hnone

/-- A declared field reads in what is left of a value as it does in the record. -/
theorem Carry.read_recordOf (h : rules.Carry v) {record : Record} {field : String} {rule : Rule}
    (hrule : (field, rule) ∈ rules.members) :
    (rules.recordOf (rules.valueOf v record)).read field = record.read field := by
  cases rules with
  | fields fields =>
    obtain ⟨members, rfl⟩ := h
    rfl
  | whole descriptor =>
    have hfield : field = wholeField := congrArg Prod.fst (List.mem_singleton.1 hrule)
    rw [hfield]
    rfl

/-- A value is left as it is if its record is. -/
theorem Carry.valueOf_recordOf (h : rules.Carry v) : rules.valueOf v (rules.recordOf v) = v := by
  cases rules with
  | fields fields =>
    obtain ⟨members, rfl⟩ := h
    rfl
  | whole descriptor => rfl

end Rules

namespace Engine

variable {σ : Type} {engine : Engine σ} {nested : NestedValidation σ}

/-- Validation without a forced report evaluates the fields on the record of the value, and the
value passes when there is nothing to report. -/
theorem validateBy_eq_ok {rules : Rules} {s t : Store Value σ} {outcome : Outcome}
    (h : engine.validateBy nested rules false s = .ok outcome t) :
    (∀ fields, rules = .fields fields → s.target.isTruthy = true) ∧ ∃ reports u,
      engine.judgeAll nested rules.members false rules.members
        ⟨rules.recordOf s.target, s.caller⟩ = .ok reports u ∧
      t = ⟨rules.valueOf s.target u.target, u.caller⟩ ∧ (outcome = .valid ↔ reports = []) := by
  cases rules with
  | fields fields =>
    obtain ⟨htruthy, reports, u, hall, ht, houtcome⟩ := validateFields_eq_ok h
    refine ⟨fun _ _ => htruthy, reports, u, hall, ht, ?_⟩
    rw [houtcome]
    cases reports with
    | nil => exact iff_of_true rfl rfl
    | cons entry rest => exact iff_of_false nofun nofun
  | whole descriptor =>
    obtain ⟨result, u, hjudge, ht, houtcome⟩ := validateWhole_eq_ok h
    refine ⟨nofun, ?_⟩
    cases result with
    | valid =>
      exact ⟨[], u, Run.bind_eq_ok.2 ⟨_, u, hjudge, rfl⟩, ht, iff_of_true houtcome rfl⟩
    | checked report =>
      refine ⟨[(wholeField, report)], u, Run.bind_eq_ok.2 ⟨_, u, hjudge, rfl⟩, ht, ?_⟩
      rw [houtcome]
      exact iff_of_false nofun nofun

/-- A value passes if evaluating the fields on its record reports nothing. -/
theorem validateBy_of_judgeAll {rules : Rules} {v : Value} {c : σ} {u : Store Record σ}
    (htruthy : ∀ fields, rules = .fields fields → v.isTruthy = true)
    (h : engine.judgeAll nested rules.members false rules.members ⟨rules.recordOf v, c⟩ =
      .ok [] u) :
    engine.validateBy nested rules false ⟨v, c⟩ =
      .ok .valid ⟨rules.valueOf v u.target, u.caller⟩ := by
  cases rules with
  | fields fields =>
    show engine.validateFields nested fields false ⟨v, c⟩ = _
    have hfocus : Run.focus recordOf withRecord (engine.judgeAll nested fields false fields)
        ⟨v, c⟩ = .ok [] ⟨withRecord v u.target, u.caller⟩ :=
      Run.focus_eq_ok.2 ⟨u, h, rfl⟩
    unfold validateFields
    simp only [Run.target_bind, htruthy fields rfl, Bool.not_true, Bool.false_eq_true, if_false]
    exact Run.bind_eq_ok.2 ⟨[], _, hfocus, rfl⟩
  | whole descriptor =>
    show engine.validateWhole nested descriptor false ⟨v, c⟩ = _
    obtain ⟨result, w, others, hjudge, hothers, hnil⟩ := judgeAll_cons_eq_nil h
    obtain ⟨-, rfl⟩ := Run.pure_eq_ok.1 hothers
    have hpasses : result.passes = true := (hnil.1 rfl).1
    cases result with
    | valid => exact Run.bind_eq_ok.2 ⟨_, _, Run.focus_eq_ok.2 ⟨w, hjudge, rfl⟩, rfl⟩
    | checked report => cases hpasses

/-- What is left of a value holds a record that comes after the one of the run. -/
theorem later_recordOf {rules : Rules} {v : Value} {record : Record} (hcarry : rules.Carry v)
    (hlater : engine.Later nested rules.members (rules.recordOf v) record) :
    engine.Later nested rules.members record (rules.recordOf (rules.valueOf v record)) := by
  cases rules with
  | fields fields =>
    obtain ⟨members, rfl⟩ := hcarry
    exact .refl record
  | whole descriptor =>
    have hwhole : ∀ w : Value, Fields.read [(wholeField, w)] wholeField = w := fun _ => rfl
    refine ⟨fun field rule hget => ?_, fun field hget => ?_⟩
    · have hfield : field = wholeField :=
        congrArg Prod.fst (List.mem_singleton.1 (Fields.mem_of_get? hget))
      rw [hfield, Rules.valueOf, Rules.recordOf, hwhole]
    · have hne : field ≠ wholeField := by
        rintro rfl
        cases hget
      have hother : ∀ w : Value, Fields.read [(wholeField, w)] field = .null := by
        intro w
        rw [Fields.read, Fields.get?_cons, if_neg hne]
        rfl
      rw [hlater.undeclared field hget]
      exact (hother _).trans (hother _).symm

/-! ## What is left of a record that passes is at rest -/

/-- Runs that take no field out of the record. -/
def growing : Conduct Record σ where
  keeps s t := ∀ field, t.target.get? field = none → s.target.get? field = none
  breaks _ _ _ := True
  refl _ _ h := h
  trans h h' field hnone := h field (h' field hnone)
  breaks_of_keeps _ _ := trivial

/-- Runs take no field out of the record. -/
theorem governed_growing {rules : Fields Rule} :
    Governed engine nested rules (fun _ => growing) (fun _ _ => growing) where
  keeps_judging h := h
  breaks_judging _ := trivial
  enters _ hrun s := by
    refine Run.ObeysAt.intro (fun a t ha => ?_) fun _ _ _ => trivial
    obtain ⟨u, hu, rfl⟩ := during_eq_ok.1 ha
    have hkeeps := (hrun _).keeps hu
    exact hkeeps
  cycles _ _ _ _ := trivial
  misses _ _ _ _ := trivial
  prepares := by
    intro inProgress field rule _ _
    refine runModules_obeys _ (fun entry _ module _ s => ?_) _
    refine Run.ObeysAt.intro (fun out t hout => ?_) fun _ _ _ => trivial
    rw [runModule, Run.target_bind] at hout
    obtain ⟨u, -, rfl⟩ := Run.focus_eq_ok.1 hout
    intro other hnone
    cases hwritten : u.target with
    | none =>
      rw [hwritten] at hnone
      exact hnone
    | some v =>
      rw [hwritten] at hnone
      by_cases hother : other = field
      · rw [hother, Fields.get?_put_self] at hnone
        cases hnone
      · rwa [Fields.get?_put_of_ne _ _ hother] at hnone
  abandons _ _ _ _ _ _ h := h

/-- If nothing is reported, the modules and the validators of each declared field have found nothing
at its own turn. -/
theorem ownTurn_of_judgeAll {rules : Fields Rule} {field : String} {rule : Rule}
    (hrule : (field, rule) ∈ rules) {s t : Store Record σ}
    (hrun : engine.judgeAll nested rules false rules s = .ok [] t) :
    ∃ before after x c found results y verdicts w d, rules = before ++ (field, rule) :: after ∧
      engine.judgeAll nested rules false before s = .ok [] x ∧
      engine.runModules nested field rule.canonical rule.canonical.modules .empty ⟨x.target, c⟩ =
        .ok results y ∧ results.errors = [] ∧
      engine.findAll rule.canonical.validators = .ok found ∧
      engine.checkAll (engine.dependencyPasses nested rules ([] ++ [field])) field found y =
        .ok verdicts w ∧
      engine.judgeAll nested rules false after ⟨w.target, d⟩ = .ok [] t := by
  obtain ⟨before, after, hrules⟩ := List.append_of_mem hrule
  have hsplit : engine.judgeAll nested rules false (before ++ (field, rule) :: after) s =
      .ok [] t := by
    rw [← hrules]
    exact hrun
  obtain ⟨front, x, back, hbefore, hback, hnil⟩ := judgeAll_append_eq_ok hsplit
  obtain ⟨rfl, rfl⟩ := List.append_eq_nil_iff.1 hnil.symm
  obtain ⟨result, u, others, hturn, hothers, hpasses⟩ := judgeAll_cons_eq_nil hback
  obtain ⟨hpassed, rfl⟩ := hpasses.1 rfl
  obtain ⟨w, hjudge, rfl⟩ := during_eq_ok.1 hturn
  obtain ⟨found, results, y, verdicts, hfound, hmodules, hchecks, hclean, hisClean⟩ :=
    judge_isClean hjudge
  rw [hisClean rfl] at hpassed
  exact ⟨before, after, x, _, found, results, y, verdicts, w, _, hrules, hbefore, hmodules,
    (hclean.1 hpassed).2, hfound, hchecks, hothers⟩

/-- If nothing is reported, each declared field has had a pass of its modules without errors. -/
theorem ownPass_of_judgeAll {rules : Fields Rule} (hdistinct : rules.Distinct) {field : String}
    {rule : Rule} (hrule : (field, rule) ∈ rules) {s t : Store Record σ}
    (hrun : engine.judgeAll nested rules false rules s = .ok [] t) :
    ∃ x results y, engine.Later nested rules s.target x.target ∧
      engine.runModules nested field rule.canonical rule.canonical.modules .empty x =
        .ok results y ∧ results.errors = [] ∧ engine.Later nested rules y.target t.target ∧
      ∀ other, t.target.get? other = none → y.target.get? other = none := by
  have hadvancing : engine.Governed nested rules _ _ := governed_advancing hdistinct
  have hgrowing : engine.Governed nested rules _ _ := governed_growing
  obtain ⟨before, after, x, c, found, results, y, verdicts, w, d, hrules, hbefore, hmodules,
    herrors, hfound, hchecks, hafter⟩ := ownTurn_of_judgeAll hrule hrun
  have hbeforeTurns : ∀ entry ∈ before, entry ∈ rules := by
    rw [hrules]
    exact fun entry hentry => List.mem_append_left _ hentry
  have hafterTurns : ∀ entry ∈ after, entry ∈ rules := by
    rw [hrules]
    exact fun entry hentry => List.mem_append_right _ (List.mem_cons_of_mem _ hentry)
  have hwalk : Walk rules ([] ++ [field]) := Walk.single field
  have hx := ((hadvancing.judgeAll_obeys false before hbeforeTurns s).keeps hbefore).1
  have hw := ((hadvancing.checkAll_obeys hwalk hrule hfound y).keeps hchecks).1
  have ht := ((hadvancing.judgeAll_obeys false after hafterTurns _).keeps hafter).1
  have hw' := (hgrowing.checkAll_obeys hwalk hrule hfound y).keeps hchecks
  have ht' := (hgrowing.judgeAll_obeys false after hafterTurns _).keeps hafter
  exact ⟨⟨x.target, c⟩, results, y, hx, hmodules, herrors, hw.trans ht,
    fun other hnone => hw' other (ht' other hnone)⟩

/-- One pass brings the modules of a field to rest on a value: if it finds no errors, a further one
finds none and leaves what it has left; if it finds errors, so do all that come after it. -/
structure SettlesOn (engine : Engine σ) (field : String) (rule : Rule) (v : Value) : Prop where
  rests : ∀ v', engine.Passes engine.validate field rule v v' true →
    engine.Passes engine.validate field rule v' v' true
  fails : ∀ v' w w' clean, engine.Passes engine.validate field rule v v' false →
    engine.Becomes engine.validate field rule v' w →
      engine.Passes engine.validate field rule w w' clean → clean = false

section Settling

variable (hmodules : engine.modules = KnownModules.builtin) {field : String} {rule : Rule}
  (hconfigs : ∀ entry ∈ rule.canonical.modules, ∀ hook, entry.2 ≠ .function hook)

include hmodules hconfigs

/-- On a value at rest the modules stay. -/
theorem Passes.becomes_eq {v w : Value} (h : engine.Passes engine.validate field rule v v true)
    (hbecomes : engine.Becomes engine.validate field rule v w) : w = v := by
  induction hbecomes with
  | refl => rfl
  | tail _ hstep ih =>
    obtain ⟨clean, hpass⟩ := hstep
    rw [ih] at hpass
    exact (h.unique hmodules hconfigs hpass).1

/-- A field that settles on a value is steady from there on. -/
theorem SettlesOn.steadyFrom {v : Value} (h : engine.SettlesOn field rule v) :
    engine.SteadyFrom engine.validate field rule v := by
  intro v' w w' clean clean' hfirst hbetween hlast
  cases clean with
  | false => exact ⟨h.fails v' w w' clean' hfirst hbetween hlast, nofun⟩
  | true =>
    have hrest := h.rests v' hfirst
    rw [hrest.becomes_eq hmodules hconfigs hbetween] at hlast
    obtain ⟨hvalue, hclean⟩ := hrest.unique hmodules hconfigs hlast
    exact ⟨hclean, fun _ => hvalue⟩

/-- A pass without errors leaves the field at rest, however many have come before it. -/
theorem SettlesOn.rests_after {start v v' : Value} (h : engine.SettlesOn field rule start)
    (hbefore : engine.Becomes engine.validate field rule start v)
    (hpass : engine.Passes engine.validate field rule v v' true) :
    engine.Passes engine.validate field rule v' v' true := by
  rcases Relation.ReflTransGen.cases_head hbefore with rfl | ⟨u, ⟨clean, hfirst⟩, hrest⟩
  · exact h.rests v' hpass
  · obtain ⟨rfl, hvalue⟩ := h.steadyFrom hmodules hconfigs _ _ _ _ _ hfirst hrest hpass
    rw [hvalue rfl]
    exact h.rests u hfirst

end Settling

/-- When a run has reported nothing, and one pass brings every field to rest, the record is at rest.
-/
theorem atRest_of_judgeAll (hmodules : engine.modules = KnownModules.builtin) {rules : Rules}
    (hdata : rules.FromData) {s t : Store Record σ}
    (hsettles : ∀ field rule, (field, rule) ∈ rules.members →
      engine.SettlesOn field rule (s.target.read field))
    (hrun : engine.judgeAll engine.validate rules.members false rules.members s = .ok [] t)
    {last : Record} (hlast : engine.Later engine.validate rules.members t.target last)
    (hpresent : ∀ field rule, (field, rule) ∈ rules.members → last.get? field = none →
      t.target.get? field = none) :
    engine.AtRest engine.validate rules.members last := by
  intro field rule hrule c
  have hconfigs := hdata.noFunctions hrule
  have hget := Fields.get?_of_mem hdata.distinct hrule
  obtain ⟨x, results, y, hx, hpass, herrors, ht, hgrows⟩ :=
    ownPass_of_judgeAll hdata.distinct hrule hrun
  have hown : engine.Passes engine.validate field rule (x.target.read field) (y.target.read field)
      true := ⟨x, results, y, hpass, rfl, rfl, List.isEmpty_iff.2 herrors⟩
  have hrest := (hsettles field rule hrule).rests_after hmodules hconfigs
    (hx.declared field rule hget) hown
  have hstays : last.read field = y.target.read field :=
    hrest.becomes_eq hmodules hconfigs ((ht.trans hlast).declared field rule hget)
  obtain ⟨results', written, c', hagain, hleft, hclean⟩ :=
    hrest.everywhere hmodules hconfigs ⟨last, c⟩ hstays
  refine ⟨results', c', ?_, List.isEmpty_iff.1 hclean⟩
  suffices hsame : last.putIf field written = last by
    rwa [hsame] at hagain
  by_cases hlook : last.get? field = none
  swap
  · exact Fields.putIf_of_read hlook (hleft.trans hstays.symm)
  -- The field is absent, and has been at its own turn, when a pass over null wrote nothing.
  have hy := hgrows field (hpresent field rule hrule hlook)
  obtain ⟨first, hfirst, hlocal⟩ := runModules_local hmodules hconfigs hpass
  cases first with
  | some w =>
    rw [hfirst, Fields.putIf, Fields.get?_put_self] at hy
    cases hy
  | none =>
    have hread : last.read field = x.target.read field := by
      rw [hstays, hfirst]
      rfl
    obtain ⟨d, hquiet⟩ := hlocal ⟨last, c⟩ hread
    rw [hagain, EStateM.Result.ok.injEq, Store.mk.injEq] at hquiet
    exact hquiet.2.1

/-! ## Runs on what is left of a value -/

/-- A run by some rules leaves another value in the place of a value. -/
def Leaves (engine : Engine σ) (rules : Rules) (v w : Value) : Prop :=
  ∃ c outcome t, engine.validate rules false ⟨v, c⟩ = .ok outcome t ∧ t.target = w

/-- A value passes by some rules and stays as it is, whatever the state of the caller. -/
def Accepts (engine : Engine σ) (rules : Rules) (v : Value) : Prop :=
  ∀ c, ∃ d, engine.validate rules false ⟨v, c⟩ = .ok .valid ⟨v, d⟩

/-- Rules are stable on a value: if it passes, then what is left of it passes again and stays as it
is, and if it fails, then what is left of it after any number of runs fails again. -/
structure StableOn (engine : Engine σ) (rules : Rules) (v : Value) : Prop where
  passes : ∀ {c t}, engine.validate rules false ⟨v, c⟩ = .ok .valid t →
    engine.Accepts rules t.target
  fails : ∀ {c outcome t}, engine.validate rules false ⟨v, c⟩ = .ok outcome t → outcome ≠ .valid →
    ∀ {w c' outcome' t'}, Relation.ReflTransGen (engine.Leaves rules) t.target w →
      engine.validate rules false ⟨w, c'⟩ = .ok outcome' t' → outcome' ≠ .valid

section Runs

variable (hmodules : engine.modules = KnownModules.builtin) {rules : Rules}

include hmodules

/-- How a run ends and what it leaves does not depend on the state of the caller. -/
theorem validate_of_caller {v : Value} {c : σ} {outcome : Outcome} {t : Store Value σ}
    (hrun : engine.validate rules false ⟨v, c⟩ = .ok outcome t) (c' : σ) :
    ∃ d, engine.validate rules false ⟨v, c'⟩ = .ok outcome ⟨t.target, d⟩ := by
  obtain ⟨d, hrun', -⟩ := ((alike_self hmodules).validate rules false).ok c' trivial hrun
  exact ⟨d, hrun'⟩

/-- A value whose record does not go back into it is left as it is. -/
theorem target_of_not_carry {v : Value} (hcarry : ¬ rules.Carry v) {c : σ} {outcome : Outcome}
    {t : Store Value σ} (hrun : engine.validate rules false ⟨v, c⟩ = .ok outcome t) :
    t.target = v := by
  rw [validate_eq_validateBy hmodules] at hrun
  obtain ⟨-, reports, u, -, rfl, -⟩ := validateBy_eq_ok hrun
  cases rules with
  | whole descriptor => exact absurd trivial hcarry
  | fields fields =>
    cases v with
    | object members => exact absurd ⟨members, rfl⟩ hcarry
    | _ => rfl

/-- Rules are stable on a value that their record does not go back into. -/
theorem stableOn_of_not_carry {v : Value} (hcarry : ¬ rules.Carry v) : engine.StableOn rules v := by
  have hstays : ∀ w, Relation.ReflTransGen (engine.Leaves rules) v w → w = v := by
    intro w hleaves
    induction hleaves with
    | refl => rfl
    | tail _ hstep ih =>
      obtain ⟨c, outcome, t, hrun, rfl⟩ := hstep
      rw [ih] at hrun
      exact target_of_not_carry hmodules hcarry hrun
  constructor
  · intro c t hrun c'
    rw [target_of_not_carry hmodules hcarry hrun]
    obtain ⟨d, hagain⟩ := validate_of_caller hmodules hrun c'
    rw [target_of_not_carry hmodules hcarry hrun] at hagain
    exact ⟨d, hagain⟩
  · intro c outcome t hrun hfails w c' outcome' t' hleaves hagain
    rw [target_of_not_carry hmodules hcarry hrun] at hleaves
    rw [hstays w hleaves] at hagain
    obtain ⟨d, hsame⟩ := validate_of_caller hmodules hrun c'
    rw [hagain] at hsame
    cases hsame
    exact hfails

variable (hdata : rules.FromData)

include hdata

/-- A run takes the record of a value to later records, and what is left of it goes on from there.
-/
theorem validate_later {v : Value} (hcarry : rules.Carry v) {c : σ} {outcome : Outcome}
    {t : Store Value σ} (hrun : engine.validate rules false ⟨v, c⟩ = .ok outcome t) :
    rules.Carry t.target ∧ ∃ reports u,
      engine.judgeAll engine.validate rules.members false rules.members ⟨rules.recordOf v, c⟩ =
        .ok reports u ∧ (outcome = .valid ↔ reports = []) ∧
      t.target = rules.valueOf v u.target ∧
      engine.Later engine.validate rules.members (rules.recordOf v) u.target ∧
      engine.Later engine.validate rules.members u.target (rules.recordOf t.target) := by
  have hgoverned : engine.Governed engine.validate rules.members _ _ :=
    governed_advancing hdata.distinct
  rw [validate_eq_validateBy hmodules] at hrun
  obtain ⟨-, reports, u, hall, rfl, hvalid⟩ := validateBy_eq_ok hrun
  have hsteps : engine.Later engine.validate rules.members (rules.recordOf v) u.target :=
    ((hgoverned.judgeAll_obeys false rules.members (fun _ => id) _).keeps hall).1
  exact ⟨hcarry.valueOf _, reports, u, hall, hvalid, rfl, hsteps, later_recordOf hcarry hsteps⟩

/-- Any number of runs take the record of a value to later records. -/
theorem later_of_leaves {v w : Value} (hcarry : rules.Carry v)
    (hleaves : Relation.ReflTransGen (engine.Leaves rules) v w) : rules.Carry w ∧
      engine.Later engine.validate rules.members (rules.recordOf v) (rules.recordOf w) := by
  induction hleaves with
  | refl => exact ⟨hcarry, .refl _⟩
  | tail _ hstep ih =>
    obtain ⟨c, outcome, t, hrun, rfl⟩ := hstep
    obtain ⟨hcarried, hbefore⟩ := ih
    obtain ⟨hcarries, _, _, _, _, _, hsteps, hrest⟩ := validate_later hmodules hdata hcarried hrun
    exact ⟨hcarries, hbefore.trans (hsteps.trans hrest)⟩

/-- Rules that are read from data are stable on a value if one pass brings the modules of every
field to rest on what the value holds there. -/
theorem stableOn_of_settlesOn {v : Value}
    (hsettles : ∀ field rule, (field, rule) ∈ rules.members →
      engine.SettlesOn field rule ((rules.recordOf v).read field)) :
    engine.StableOn rules v := by
  by_cases hcarry : rules.Carry v
  swap
  · -- Nothing is written back, so that every run is the first one over again.
    exact stableOn_of_not_carry hmodules hcarry
  have hsteady : ∀ field rule, (field, rule) ∈ rules.members →
      engine.SteadyFrom engine.validate field rule ((rules.recordOf v).read field) :=
    fun field rule hrule =>
      (hsettles field rule hrule).steadyFrom hmodules (hdata.noFunctions hrule)
  constructor
  · intro c t hrun c'
    obtain ⟨hcarried, reports, u, hall, hvalid, hleft, hsteps, hlast⟩ :=
      validate_later hmodules hdata hcarry hrun
    rw [hvalid.1 rfl] at hall
    have hpresent : ∀ field rule, (field, rule) ∈ rules.members →
        (rules.recordOf t.target).get? field = none → u.target.get? field = none := by
      rw [hleft]
      exact fun field rule hrule hnone => hcarry.get?_recordOf hrule hnone
    have hrest : engine.AtRest engine.validate rules.members (rules.recordOf t.target) :=
      atRest_of_judgeAll hmodules hdata hsettles hall hlast hpresent
    obtain ⟨reports', d, hagain⟩ := judgeAll_idles hdata.distinct hdata.plain hsteady hrest
      (fun _ => id) (.refl _) hall hlast c'
    have hnone : reports' = [] :=
      (judgeAll_agrees hdata.distinct hdata.plain hsteady (fun _ => id) (.refl _) hall hagain
        hlast).2 rfl
    rw [hnone] at hagain
    have htruthy : ∀ fields, rules = .fields fields → t.target.isTruthy = true := by
      rintro fields rfl
      exact hcarried.truthy
    have hpasses := validateBy_of_judgeAll htruthy hagain
    rw [hcarried.valueOf_recordOf] at hpasses
    rw [validate_eq_validateBy hmodules]
    exact ⟨d, hpasses⟩
  · intro c outcome t hrun hfails w c' outcome' t' hleaves hagain
    obtain ⟨hcarried, reports, u, hall, hvalid, -, -, hlast⟩ :=
      validate_later hmodules hdata hcarry hrun
    obtain ⟨hcarries, hbetween⟩ := later_of_leaves hmodules hdata hcarried hleaves
    obtain ⟨-, reports', u', hall', hvalid', -, -, -⟩ :=
      validate_later hmodules hdata hcarries hagain
    have hsame := judgeAll_agrees hdata.distinct hdata.plain hsteady (fun _ => id) (.refl _) hall
      hall' (hlast.trans hbetween)
    rw [Ne, hvalid', hsame, ← hvalid]
    exact hfails

end Runs

/-! ## Fields that depend on no others -/

/-- Runs that leave a field alone. -/
def apart (field : String) : Conduct Record σ where
  keeps s t := t.target.read field = s.target.read field
  breaks _ _ _ := True
  refl _ := rfl
  trans h h' := h'.trans h
  breaks_of_keeps _ _ := trivial

section Independent

variable {rules : Fields Rule}
  (hindependent : ∀ field rule, (field, rule) ∈ rules → rule.canonical.dependencies = [])

include hindependent

/-- Without dependencies the validators of a field leave all fields alone. -/
theorem checkAll_apart {field : String} {rule : Rule} (hrule : (field, rule) ∈ rules)
    {found : List (String × Validator × Spec)}
    (hfound : engine.findAll rule.canonical.validators = .ok found)
    (depends : String → Run Record σ Bool) (other : String) :
    (engine.checkAll depends field found).Obeys (apart other) := by
  have hnone : ∀ entry ∈ found, ∀ d, d ∉ entry.2.2.values.filterMap Param.dependency? := by
    intro entry hentry d hd
    have hmem := mem_dependencies_of_findAll hfound hentry hd
    rw [hindependent field rule hrule] at hmem
    cases hmem
  exact checkAll_obeys found (fun entry hentry d hd => absurd hd (hnone entry hentry d))
    fun entry hentry d hd => absurd hd (hnone entry hentry d)

/-- Evaluating other fields leaves a field alone. -/
theorem judgeAll_apart {field : String} {turns : List (String × Rule)}
    (hturns : ∀ entry ∈ turns, entry ∈ rules) (hothers : ∀ entry ∈ turns, entry.1 ≠ field) :
    (engine.judgeAll nested rules false turns).Obeys (apart field) := by
  induction turns with
  | nil => exact Run.obeys_pure _
  | cons turn rest ih =>
    obtain ⟨other, rule⟩ := turn
    have hrule : (other, rule) ∈ rules := hturns (other, rule) List.mem_cons_self
    have hne : field ≠ other := (hothers (other, rule) List.mem_cons_self).symm
    have hrest := ih (fun entry hentry => hturns entry (List.mem_cons_of_mem _ hentry))
      fun entry hentry => hothers entry (List.mem_cons_of_mem _ hentry)
    have hjudge : (engine.judgeWithin nested rules [] other rule false).Obeys (apart field) := by
      intro s
      refine Run.ObeysAt.intro (fun result t hresult => ?_) fun _ _ _ => trivial
      obtain ⟨u, hu, rfl⟩ := during_eq_ok.1 hresult
      have hobeys : (engine.judge nested (engine.dependencyPasses nested rules ([] ++ [other]))
          other rule false).Obeys (apart field) := by
        refine judge_obeys false (fun _ _ _ => trivial) (fun s => ?_)
          fun found hfound => checkAll_apart hindependent hrule hfound _ field
        exact Run.ObeysAt.intro (fun _ _ hmodules => runModules_frame hmodules hne)
          fun _ _ _ => trivial
      have hkeeps := (hobeys _).keeps hu
      exact hkeeps
    refine hjudge.bind fun result => hrest.bind fun others => ?_
    cases result with
    | valid => exact Run.obeys_pure _
    | checked report => exact Run.obeys_pure _

/-- Without dependencies a field has one pass of its modules, at its own turn. -/
theorem passes_of_judgeAll (hdistinct : rules.Distinct) {field : String} {rule : Rule}
    (hrule : (field, rule) ∈ rules) {s t : Store Record σ}
    (hrun : engine.judgeAll nested rules false rules s = .ok [] t) :
    engine.Passes nested field rule (s.target.read field) (t.target.read field) true := by
  obtain ⟨before, after, x, c, found, results, y, verdicts, w, d, hrules, hbefore, hmodules,
    herrors, hfound, hchecks, hafter⟩ := ownTurn_of_judgeAll hrule hrun
  have hkeys : Fields.Distinct (before ++ (field, rule) :: after) := by
    rwa [← hrules]
  rw [Fields.Distinct, Fields.keys, List.map_append, List.map_cons, List.nodup_append,
    List.nodup_cons] at hkeys
  obtain ⟨-, ⟨hnotAfter, -⟩, hapart⟩ := hkeys
  have hbeforeTurns : ∀ entry ∈ before, entry ∈ rules := by
    rw [hrules]
    exact fun entry hentry => List.mem_append_left _ hentry
  have hafterTurns : ∀ entry ∈ after, entry ∈ rules := by
    rw [hrules]
    exact fun entry hentry => List.mem_append_right _ (List.mem_cons_of_mem _ hentry)
  have hnotBefore : ∀ entry ∈ before, entry.1 ≠ field :=
    fun entry hentry =>
      hapart entry.1 (List.mem_map.2 ⟨entry, hentry, rfl⟩) field List.mem_cons_self
  have hnoneAfter : ∀ entry ∈ after, entry.1 ≠ field :=
    fun entry hentry heq => hnotAfter (List.mem_map.2 ⟨entry, hentry, heq⟩)
  have hx : x.target.read field = s.target.read field :=
    (judgeAll_apart hindependent hbeforeTurns hnotBefore s).keeps hbefore
  have hw : w.target.read field = y.target.read field :=
    (checkAll_apart hindependent hrule hfound _ field y).keeps hchecks
  have ht : t.target.read field = w.target.read field :=
    (judgeAll_apart hindependent hafterTurns hnoneAfter ⟨w.target, d⟩).keeps hafter
  exact ⟨⟨x.target, c⟩, results, y, hmodules, hx, (ht.trans hw).symm, List.isEmpty_iff.2 herrors⟩

end Independent

/-- Where no field depends on another, a value that has passed passes again and stays as it is
exactly when one more pass of the modules of each field is without errors and leaves the field as it
is. -/
theorem accepts_iff_of_independent (hmodules : engine.modules = KnownModules.builtin)
    {rules : Rules} (hdata : rules.FromData)
    (hindependent : ∀ field rule, (field, rule) ∈ rules.members →
      rule.canonical.dependencies = []) {v : Value} (hcarry : rules.Carry v) {c : σ}
    {t : Store Value σ} (hrun : engine.validate rules false ⟨v, c⟩ = .ok .valid t) :
    engine.Accepts rules t.target ↔ ∀ field rule, (field, rule) ∈ rules.members →
      engine.Passes engine.validate field rule ((rules.recordOf t.target).read field)
        ((rules.recordOf t.target).read field) true := by
  obtain ⟨hcarried, reports, u, hall, hvalid, hleft, -, -⟩ :=
    validate_later hmodules hdata hcarry hrun
  rw [hvalid.1 rfl] at hall
  constructor
  · intro haccepts field rule hrule
    obtain ⟨d, hagain⟩ := haccepts c
    obtain ⟨-, reports', u', hall', hvalid', hleft', -, -⟩ :=
      validate_later hmodules hdata hcarried hagain
    rw [hvalid'.1 rfl] at hall'
    have hstays : t.target = rules.valueOf t.target u'.target := hleft'
    have hsame : (rules.recordOf t.target).read field = u'.target.read field :=
      calc (rules.recordOf t.target).read field
          = (rules.recordOf (rules.valueOf t.target u'.target)).read field :=
            congrArg (fun w => (rules.recordOf w).read field) hstays
        _ = u'.target.read field := hcarried.read_recordOf hrule
    have hpass := passes_of_judgeAll hindependent hdata.distinct hrule hall'
    rw [← hsame] at hpass
    exact hpass
  · intro hrests
    refine (stableOn_of_settlesOn hmodules hdata fun field rule hrule => ?_).passes hrun
    have hconfigs := hdata.noFunctions hrule
    have hsame : (rules.recordOf t.target).read field = u.target.read field := by
      rw [hleft, hcarry.read_recordOf hrule]
    have hown := passes_of_judgeAll hindependent hdata.distinct hrule hall
    have hrest := hrests field rule hrule
    rw [hsame] at hrest
    constructor
    · intro v' hfirst
      rw [(hown.unique hmodules hconfigs hfirst).1]
      exact hrest
    · -- The pass over this value is the one at the field's own turn, which was without errors.
      intro v' w w' clean hfirst
      cases (hown.unique hmodules hconfigs hfirst).2

end Engine

end Vetting
