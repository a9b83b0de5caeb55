import Vetting.Proofs.Revalidation
import Vetting.Proofs.TopologicalOrder

/-!
# Strict and lenient engines

A strict engine passes over no validator. It looks at more dependencies for it, more of them fail
and have other validators abandoned, and more cycles are met, so neither engine reports all that the
other one reports: where a field depends on a blank one, the strict engine may report the blank
field only, and the lenient one the other field only. Still the verdicts are ordered, as long as no
module writes into the record: a value that the strict engine passes is passed by the lenient one
(`validate_strict_lenient`).

A pass tells more than that nothing was reported. Whatever a field depends on has a turn of its own
or no rule at all, so no validator was abandoned in a run that passes, and the lenient engine finds
each validator as the strict one did or passes it over (`findings_lenient`). Both engines come to
what is read off the record (`validate_valid_iff`).
-/

set_option autoImplicit false

namespace Vetting

/-- Members of a list can all be read with some property when what is read of the list has it. -/
theorem mapM_forall_iff {α β : Type} {f : α → Option β} {P : β → Prop} {l : List α} :
    (∃ ys, l.mapM f = some ys ∧ ∀ y ∈ ys, P y) ↔ ∀ x ∈ l, ∃ y, f x = some y ∧ P y := by
  induction l with
  | nil => simp
  | cons x rest ih =>
    rw [List.forall_mem_cons, ← ih]
    constructor
    · rintro ⟨ys, hys, hall⟩
      rw [List.mapM_cons] at hys
      obtain ⟨y, hy, hys⟩ := Option.bind_eq_some_iff.1 hys
      obtain ⟨zs, hzs, hys⟩ := Option.bind_eq_some_iff.1 hys
      cases hys
      rw [List.forall_mem_cons] at hall
      exact ⟨⟨y, hy, hall.1⟩, zs, hzs, hall.2⟩
    · rintro ⟨⟨y, hy, hfirst⟩, zs, hzs, hrest⟩
      refine ⟨y :: zs, ?_, List.forall_mem_cons.2 ⟨hfirst, hrest⟩⟩
      rw [List.mapM_cons, hy, hzs]
      rfl

namespace Engine

variable {σ : Type}

/-- An engine, made strict or lenient. -/
def withStrict (engine : Engine σ) (strict : Bool) : Engine σ :=
  { engine with settings := ⟨strict⟩ }

/-! ## What both engines read -/

section Reading

variable {engine : Engine σ} {rules : Fields Rule} {record : Record} {field : String}
  {p q : String → Option Bool} {rule : Rule}

/-- There are no failures exactly if no verdict has a message. -/
theorem failures_eq_nil_iff {verdicts : List (String × Verdict)} :
    failures verdicts = [] ↔ ∀ entry ∈ verdicts, entry.2.message? = none := by
  simp only [failures, List.filterMap_eq_nil_iff, Option.map_eq_none_iff]

/-- Nothing is found about a field when every validator of its rule can be read and says nothing. -/
theorem findingsBy_eq_nil_iff :
    engine.findingsBy record p field rule = some [] ↔
      ∀ entry ∈ rule.canonical.validators,
        ∃ verdict, engine.verdict? record p field entry = some verdict ∧
          verdict.2.message? = none := by
  rw [findingsBy, ← mapM_forall_iff, Option.map_eq_some_iff]
  simp only [failures_eq_nil_iff]

/-- A strict engine passes over no value. -/
theorem passesOver_strict (validator : Validator) (v : Value) :
    (engine.withStrict true).passesOver validator v = false := by
  simp [passesOver, withStrict]

/-- A validator that says nothing in a strict engine says nothing in a lenient one, where as much is
known of its dependencies: there it comes to the same verdict, or is passed over. -/
theorem verdict?_lenient (h : ∀ d b, p d = some b → q d = some b) {entry : String × Spec}
    {verdict : String × Verdict}
    (hread : (engine.withStrict true).verdict? record p field entry = some verdict)
    (hsilent : verdict.2.message? = none) :
    ∃ verdict', (engine.withStrict false).verdict? record q field entry = some verdict' ∧
      verdict'.2.message? = none := by
  obtain ⟨validator, hget, hread⟩ := Option.bind_eq_some_iff.1 hread
  obtain ⟨found, hfound, rfl⟩ := Option.map_eq_some_iff.1 hread
  rw [verdictBy, passesOver_strict, if_neg Bool.false_ne_true] at hfound
  obtain ⟨failing, hfailing, hverdict⟩ := Option.map_eq_some_iff.1 hfound
  have hregistered : (engine.withStrict false).validators.get? entry.1 = some validator := hget
  rw [verdict?, hregistered, Option.bind_some, verdictBy]
  split
  · exact ⟨(entry.1, .skipped), rfl, rfl⟩
  · rw [firstFailing_of_le h hfailing]
    exact ⟨(entry.1, found), by rw [← hverdict]; rfl, hsilent⟩

/-- Where the strict engine finds nothing about any declared field, a field about which it finds
nothing is one about which the lenient engine finds nothing. The induction is on the depth of the
reading: no dependency is known to fail, and those that are known to pass do so in the lenient
engine. -/
theorem findings_lenient
    (hall : ∀ name, rules.get? name ≠ none →
      ∃ depth, (engine.withStrict true).findings rules record depth name = some [])
    {depth : Nat} (hfound : (engine.withStrict true).findings rules record depth field = some []) :
    (engine.withStrict false).findings rules record depth field = some [] := by
  induction depth generalizing field with
  | zero =>
    cases hget : rules.get? field with
    | none => exact findings_undeclared hget 0
    | some rule =>
      rw [findings_zero (by rw [hget]; nofun)] at hfound
      cases hfound
  | succ depth ih =>
    cases hget : rules.get? field with
    | none => exact findings_undeclared hget _
    | some rule =>
      have hknown : ∀ d b, (engine.withStrict true).passes? rules record depth d = some b →
          (engine.withStrict false).passes? rules record depth d = some b := by
        intro d b hd
        have hpasses : ∃ depth', (engine.withStrict true).passes? rules record depth' d =
            some true := by
          cases hdeclared : rules.get? d with
          | none => exact ⟨0, by rw [passes?, findings_undeclared hdeclared]; rfl⟩
          | some other =>
            obtain ⟨depth', hnone⟩ := hall d (by rw [hdeclared]; nofun)
            exact ⟨depth', by rw [passes?, hnone]; rfl⟩
        obtain ⟨depth', htrue⟩ := hpasses
        obtain rfl : b = true := passes?_agree d b true hd htrue
        obtain ⟨errors, herrors, hempty⟩ := Option.map_eq_some_iff.1 hd
        rw [List.isEmpty_iff] at hempty
        rw [hempty] at herrors
        rw [passes?, ih herrors]
        rfl
      rw [findings_succ hget, findingsBy_eq_nil_iff] at hfound ⊢
      intro entry hentry
      obtain ⟨verdict, hread, hsilent⟩ := hfound entry hentry
      exact verdict?_lenient hknown hread hsilent

end Reading

/-! ## Runs that pass -/

section Runs

variable {engine : Engine σ} {nested : NestedValidation σ} {rules : Fields Rule}
  {toward : Record → Prop} {final : Record} {aux : String → Fields Value}

/-- On its way to a known record an evaluation of fields reports nothing exactly when nothing is
read of them. -/
theorem Course.judgeAll_eq_nil_iff (hcourse : engine.Course nested rules toward final aux)
    (hdistinct : rules.Distinct) {turns : List (String × Rule)}
    (hturns : ∀ entry ∈ turns, entry ∈ rules) {s : Store Record σ} (htoward : toward s.target) :
    (∃ t, engine.judgeAll nested rules false turns s = .ok [] t) ↔
      ∀ entry ∈ turns, engine.findings rules final (rules.length + 1) entry.1 = some [] := by
  induction turns generalizing s with
  | nil => exact iff_of_true ⟨s, rfl⟩ fun _ hentry => nomatch hentry
  | cons turn rest ih =>
    obtain ⟨field, rule⟩ := turn
    have hget := Fields.get?_of_mem hdistinct (hturns _ List.mem_cons_self)
    have hanswer := hcourse.judgeWithin_answers hget false htoward
    have hrest := fun entry hentry => hturns entry (List.mem_cons_of_mem (field, rule) hentry)
    rw [List.forall_mem_cons]
    constructor
    · rintro ⟨t, hrun⟩
      obtain ⟨result, u, others, hfirst, hothers, hnil⟩ := judgeAll_cons_eq_nil hrun
      obtain ⟨hpasses, rfl⟩ := hnil.1 rfl
      cases hfound : engine.findings rules final (rules.length + 1) field with
      | none =>
        rw [hfound] at hanswer
        obtain ⟨e, v, hfails⟩ := hanswer
        rw [hfirst] at hfails
        cases hfails
      | some errors =>
        rw [hfound] at hanswer
        obtain ⟨v, hends, hnearer, -⟩ := hanswer
        rw [hfirst] at hends
        cases hends
        refine ⟨?_, (ih hrest hnearer.toward).1 ⟨t, hothers⟩⟩
        cases errors with
        | nil => rfl
        | cons error others => cases hpasses
    · rintro ⟨hnone, hnothing⟩
      rw [hnone] at hanswer
      obtain ⟨u, hfirst, hnearer, -⟩ := hanswer
      obtain ⟨t, hothers⟩ := (ih hrest hnearer.toward).2 hnothing
      exact ⟨t, Run.bind_eq_ok.2 ⟨_, u, hfirst, Run.bind_eq_ok.2 ⟨_, t, hothers, rfl⟩⟩⟩

end Runs

/-- Without a registered module in its rules a run passes exactly when there is something to
validate and nothing is read of any field of its record. -/
theorem validate_valid_iff (engine : Engine σ) {rules : Rules} (hdistinct : rules.members.Distinct)
    (hunwritten : ∀ field, ¬ engine.Writes rules.members field) (s : Store Value σ) :
    (∃ t, engine.validate rules false s = .ok .valid t) ↔
      (∀ fields, rules = .fields fields → s.target.isTruthy = true) ∧
        ∀ entry ∈ rules.members, engine.findings rules.members (rules.recordOf s.target)
          (rules.members.length + 1) entry.1 = some [] := by
  have hcourse := course_of_unwritten hunwritten
    (engine.nestedWithin engine.nestingLimit rules.weight) (rules.recordOf s.target)
  have hnothing := hcourse.judgeAll_eq_nil_iff hdistinct (fun _ h => h)
    (s := ⟨rules.recordOf s.target, s.caller⟩) rfl
  rw [← hnothing]
  constructor
  · rintro ⟨t, hrun⟩
    obtain ⟨htruthy, reports, u, hall, -, hvalid⟩ := validateBy_eq_ok hrun
    rw [hvalid.1 rfl] at hall
    exact ⟨htruthy, u, hall⟩
  · rintro ⟨htruthy, u, hall⟩
    exact ⟨_, validateBy_of_judgeAll htruthy hall⟩

/-- Strictness is monotone. Where no declared field is configured with a registered module, a value
that passes when the engine is strict passes when it is lenient. -/
theorem validate_strict_lenient (engine : Engine σ) {rules : Rules}
    (hdistinct : rules.members.Distinct)
    (hunwritten : ∀ field, ¬ engine.Writes rules.members field) {s t : Store Value σ}
    (hrun : (engine.withStrict true).validate rules false s = .ok .valid t) :
    ∃ t', (engine.withStrict false).validate rules false s = .ok .valid t' := by
  have hstrict := validate_valid_iff (engine.withStrict true) hdistinct hunwritten s
  have hlenient := validate_valid_iff (engine.withStrict false) hdistinct hunwritten s
  obtain ⟨htruthy, hnothing⟩ := hstrict.1 ⟨t, hrun⟩
  refine hlenient.2 ⟨htruthy, fun entry hentry => findings_lenient ?_ (hnothing entry hentry)⟩
  intro name hname
  obtain ⟨rule, hget⟩ := Option.ne_none_iff_exists'.1 hname
  exact ⟨_, hnothing _ (Fields.mem_of_get? hget)⟩

/-- A name and its repetition, which has to be equal to it once it has no more than eight
characters. -/
def repeatedRules : Fields Rule :=
  [("again", .bare (.specs [("equalsTo", .ofValues [.dependsOn "name"])])),
    ("name", .bare (.specs [("maxLength", .ofValues [.literal (.ofInt 8)])]))]

/-- The strict engine looks at both blank fields and passes them, so the lenient engine, which
passes over their validators, passes them too. -/
theorem validate_strict_lenient_blank :
    (Rules.fields repeatedRules).members.Distinct ∧
    (∀ field, ¬ (standard : Engine Unit).Writes repeatedRules field) ∧
    (∃ t, ((standard : Engine Unit).withStrict true).validate (.fields repeatedRules) false
      ⟨.object [("again", .string ""), ("name", .string "")], ()⟩ = .ok .valid t) ∧
    ∃ t', ((standard : Engine Unit).withStrict false).validate (.fields repeatedRules) false
      ⟨.object [("again", .string ""), ("name", .string "")], ()⟩ = .ok .valid t' := by
  have hdistinct : (Rules.fields repeatedRules).members.Distinct := by decide
  have hunwritten : ∀ field, ¬ (standard : Engine Unit).Writes repeatedRules field := by
    rintro field ⟨rule, hrule, name, hname, -⟩
    have hnone : ∀ entry ∈ repeatedRules, entry.2.canonical.modules.keys = [] := by decide
    rw [hnone _ hrule] at hname
    cases hname
  have hrun : ((standard : Engine Unit).withStrict true).validate (.fields repeatedRules) false
      ⟨.object [("again", .string ""), ("name", .string "")], ()⟩ =
        .ok .valid ⟨.object [("again", .string ""), ("name", .string "")], ()⟩ := by
    with_unfolding_all rfl
  exact ⟨hdistinct, hunwritten, ⟨_, hrun⟩,
    validate_strict_lenient standard hdistinct hunwritten hrun⟩

end Engine

end Vetting
