import Vetting.Proofs.ModuleEffects
import Vetting.Proofs.RunJournal

/-!
# Abandoned validators

A validator is abandoned without a word when a field that it depends on is found not to pass; the
failure is left to that field to report, which is evaluated again at its own turn. Whether it is
reported is up to that second evaluation (`validate_failedDependencies`): the outcome has an error
of the field exactly when the field is found to have one at its own turn. It always is if the
modules of the field, and of the fields that it depends on, are steady; modules that are not, such
as a default value put in before white space is trimmed, can turn a failure into a pass in between.

The journal says which validators are abandoned (`failedDependencies`), outside nested runs, which
are runs of their own. The invariant `witnessing` keeps, for each of them, the evaluation that found
the dependency failing, between the records before and after, so that it can be compared with the
turn of the field by `judge_agrees`.
-/

set_option autoImplicit false

namespace Vetting

/-! ## Journals without nested runs -/

/-- The steps of a journal outside nested runs, when so many of these are open. -/
def ownSteps : Nat → List Event → List Event
  | _, [] => []
  | depth, .opened _ _ :: rest => ownSteps (depth + 1) rest
  | depth, .closed :: rest => ownSteps (depth - 1) rest
  | 0, event :: rest => event :: ownSteps 0 rest
  | depth + 1, _ :: rest => ownSteps (depth + 1) rest

/-- The field for whose failure a validator is abandoned. -/
def Event.failedDependency? : Event → Option String
  | .abandoned _ _ dependency => some dependency
  | _ => none

/-- The fields for whose failure validators are abandoned, outside nested runs. -/
def failedDependencies (journal : List Event) : List String :=
  (ownSteps 0 journal).filterMap Event.failedDependency?

/-- An outcome reports an error of a field. -/
def Outcome.ReportsError (outcome : Outcome) (field : String) : Prop :=
  ∃ report, outcome.report? field = some report ∧ report.errors ≠ []

/-- One step among evaluators at work counts them as `ownSteps` does, with the outermost one
inside a nested run already. -/
theorem ownSteps_after {event : Event} {moment next : Moment}
    (hafter : event.after? moment = some next) (depth : Nat) (later : List Event) :
    ownSteps (depth + moment.length) (event :: later) = ownSteps (depth + next.length) later := by
  cases moment with
  | nil => cases event <;> cases hafter
  | cons e outer =>
    cases event with
    | entered declared inProgress =>
      rw [Event.after?] at hafter
      split at hafter <;> cases hafter
      rfl
    | returned inProgress =>
      rw [Event.after?] at hafter
      split at hafter <;> cases hafter
      rfl
    | abandoned field name dependency =>
      rw [Event.after?] at hafter
      split at hafter <;> cases hafter
      rfl
    | opened rules v =>
      cases hafter
      rfl
    | closed =>
      cases outer with
      | nil => cases hafter
      | cons next outer =>
        rw [Event.after?] at hafter
        split at hafter <;> cases hafter
        rfl

/-- The steps of a nested run, from a moment back to it, are none of the steps around it. -/
theorem Journey.ownSteps_append {first last : Moment} {steps : List Event}
    (h : Journey first steps last) (depth : Nat) (later : List Event) :
    ownSteps (depth + first.length) (steps ++ later) = ownSteps (depth + last.length) later := by
  induction h with
  | stay => rfl
  | step hafter _ _ ih => rw [List.cons_append, ownSteps_after hafter, ih]

/-- Steps that are all inside nested runs. -/
def Manner.aside : Manner (List Event) where
  keeps journal later := ∃ steps, later = journal ++ steps ∧
    ∀ rest, ownSteps 0 (steps ++ rest) = ownSteps 0 rest
  breaks _ _ _ := True
  refl journal := ⟨[], (List.append_nil journal).symm, fun _ => rfl⟩
  trans := by
    rintro _ _ _ ⟨xs, rfl, hxs⟩ ⟨ys, rfl, hys⟩
    refine ⟨xs ++ ys, List.append_assoc .., fun rest => ?_⟩
    rw [List.append_assoc, hxs, hys]
  breaks_of_keeps _ _ := trivial

namespace Engine

section Witnesses

variable {settings : Settings} {validators : KnownValidators} {limit : Nat} {rules : Fields Rule}

/-- All that the modules of a field note in the journal is inside nested runs. -/
theorem runModules_aside {field : String} {rule : CanonicalForm} {configs : Fields Configuration}
    (results : Contributions) :
    ((journaled settings validators limit).runModules (journaled settings validators limit).validate
      field rule configs results).Obeys (Manner.aside.conduct Record) := by
  refine runModules_obeys_manner rfl (fun _ _ _ => trivial) (fun _ _ _ _ _ => trivial) ?_ results
  intro config hconfig inner hread s _
  have hobeys : ((journaled settings validators limit).validate inner false).Obeys
      ((Manner.journeying [⟨inner, []⟩]).conduct Value) :=
    validate_journeys inner [] (Moment.inOrder_start inner) false
  refine Run.obeysAt_target (during_obeysAt ?_ (fun _ => trivial) (hobeys _))
  rintro later ⟨steps, rfl, hjourney⟩
  refine ⟨.opened inner s.target :: (steps ++ [.closed]), by simp [journaled], fun rest => ?_⟩
  have hinside : ownSteps 1 (steps ++ (.closed :: rest)) = ownSteps 1 (.closed :: rest) :=
    hjourney.ownSteps_append 0 _
  rw [List.cons_append, List.append_assoc, List.cons_append, List.nil_append, ownSteps, hinside,
    ownSteps]

/-- A field that validators depend on has been evaluated, with some fields in progress among others,
and found to have errors, between two records. -/
def FailsBetween {σ : Type} (engine : Engine σ) (nested : NestedValidation σ)
    (rules : Fields Rule) (inProgress : List String) (d : String) (earlier later : Record) :
    Prop :=
  ∃ (others : List String) (rule : Rule) (s t : Store Record σ) (result : FieldResult),
    (∀ field ∈ inProgress, field ∈ others) ∧ Walk rules (others ++ [d]) ∧ (d, rule) ∈ rules ∧
    engine.judge nested (engine.dependencyPasses nested rules (others ++ [d])) d rule false s =
      .ok result t ∧
    result.isClean = false ∧
    engine.Later nested rules earlier s.target ∧ engine.Later nested rules t.target later

/-- A failure stays between two records if they are moved apart, and fewer fields are in progress.
-/
theorem FailsBetween.widen {σ : Type} {engine : Engine σ} {nested : NestedValidation σ}
    {inProgress fewer : List String} {d : String} {earlier first last later : Record}
    (h : engine.FailsBetween nested rules inProgress d first last)
    (hfewer : ∀ field ∈ fewer, field ∈ inProgress)
    (hfirst : engine.Later nested rules earlier first)
    (hlast : engine.Later nested rules last later) :
    engine.FailsBetween nested rules fewer d earlier later := by
  obtain ⟨others, rule, s, t, result, hothers, hwalk, hrule, hjudge, hfails, hs, ht⟩ := h
  exact ⟨others, rule, s, t, result, fun field hfield => hothers field (hfewer field hfield), hwalk,
    hrule, hjudge, hfails, hfirst.trans hs, ht.trans hlast⟩

/-- A dependency that does not pass fails while it is settled. -/
theorem failsBetween_of_dependencyPasses {σ : Type} {engine : Engine σ}
    {nested : NestedValidation σ} {inProgress : List String} {field d : String}
    (hwalk : Walk rules (inProgress ++ [field])) (hdep : DependsOn rules field d)
    {s t : Store Record σ}
    (h : engine.dependencyPasses nested rules (inProgress ++ [field]) d s = .ok false t) :
    engine.FailsBetween nested rules (inProgress ++ [field]) d s.target t.target := by
  obtain ⟨hnew, ⟨-, hpassed, -⟩ | ⟨rule, x, y, result, hget, hjudge, hx, hy, hclean⟩⟩ :=
    dependencyPasses_eq_ok h
  · cases hpassed
  · refine ⟨inProgress ++ [field], rule, x, y, result, fun _ => id, hwalk.extend hdep hnew,
      Fields.mem_of_get? hget, hjudge, hclean.symm, ?_, ?_⟩
    · rw [hx]
      exact .refl _
    · rw [hy]
      exact .refl _

/-- Runs that take records to later ones and abandon validators only for fields that fail in
between. -/
def witnessing (engine : Engine (List Event)) (nested : NestedValidation (List Event))
    (rules : Fields Rule) (inProgress : List String) : Conduct Record (List Event) where
  keeps s t := engine.Later nested rules s.target t.target ∧
    ∃ steps own, t.caller = s.caller ++ steps ∧
      (∀ rest, ownSteps 0 (steps ++ rest) = own ++ ownSteps 0 rest) ∧
      ∀ d ∈ own.filterMap Event.failedDependency?,
        engine.FailsBetween nested rules inProgress d s.target t.target
  breaks _ _ _ := True
  refl s := ⟨.refl _, [], [], (List.append_nil _).symm, fun _ => rfl, by simp⟩
  trans := by
    rintro s t u ⟨hst, xs, owns, hxs, howns, hfails⟩ ⟨htu, ys, owns', hys, howns', hfails'⟩
    refine ⟨hst.trans htu, xs ++ ys, owns ++ owns', ?_, fun rest => ?_, fun d hd => ?_⟩
    · rw [hys, hxs, List.append_assoc]
    · rw [List.append_assoc, howns, howns', List.append_assoc]
    · rw [List.filterMap_append] at hd
      rcases List.mem_append.1 hd with hd | hd
      · exact (hfails d hd).widen (fun _ => id) (.refl _) htu
      · exact (hfails' d hd).widen (fun _ => id) hst (.refl _)
  breaks_of_keeps _ _ := trivial

/-- Evaluations abandon validators only for fields that fail in between, with all the fields in
progress among those that are in progress then. -/
theorem governed_witnessing (hdistinct : rules.Distinct) :
    (journaled settings validators limit).Governed (journaled settings validators limit).validate
      rules
      (witnessing (journaled settings validators limit)
        (journaled settings validators limit).validate rules)
      (fun inProgress field =>
        witnessing (journaled settings validators limit)
          (journaled settings validators limit).validate rules (inProgress ++ [field])) where
  keeps_judging h := h
  breaks_judging _ := trivial
  enters := by
    intro α inProgress field run _ hrun s
    refine Run.ObeysAt.intro (fun a t ha => ?_) fun _ _ _ => trivial
    obtain ⟨u, hu, rfl⟩ := during_eq_ok.1 ha
    obtain ⟨hlater, steps, own, hsteps, hown, hfails⟩ := (hrun _).keeps hu
    refine ⟨hlater,
      .entered rules.keys (inProgress ++ [field]) :: (steps ++ [.returned inProgress]),
      .entered rules.keys (inProgress ++ [field]) :: (own ++ [.returned inProgress]), ?_, ?_, ?_⟩
    · show u.caller ++ [.returned inProgress] = _
      rw [hsteps]
      simp [journaled]
    · intro rest
      have hback : ownSteps 0 ((steps ++ [.returned inProgress]) ++ rest) =
          (own ++ [.returned inProgress]) ++ ownSteps 0 rest := by
        rw [List.append_assoc, hown, List.append_assoc]
        rfl
      show _ :: ownSteps 0 ((steps ++ [.returned inProgress]) ++ rest) = _
      rw [hback]
      rfl
    · intro d hd
      rw [List.filterMap_cons_none rfl, List.filterMap_append, List.mem_append] at hd
      have hd := hd.resolve_right (by simp [Event.failedDependency?])
      exact (hfails d hd).widen (fun g hg => List.mem_append_left _ hg) (.refl _) (.refl _)
  cycles _ _ _ _ := trivial
  misses _ _ _ _ := trivial
  prepares := by
    intro inProgress field rule hwalk hrule s
    refine Run.ObeysAt.intro (fun results t hrun => ?_) fun _ _ _ => trivial
    have hgoverned : (journaled settings validators limit).Governed
        (journaled settings validators limit).validate rules _ _ := governed_advancing hdistinct
    obtain ⟨steps, hsteps, haside⟩ := (runModules_aside .empty s).keeps hrun
    refine ⟨((hgoverned.prepares hwalk hrule s).keeps hrun).1, steps, [], hsteps, haside, ?_⟩
    intro d hd
    cases hd
  abandons := by
    intro inProgress field d name hwalk hdep s t hrun hkeeps
    have hfailing := failsBetween_of_dependencyPasses hwalk hdep hrun
    obtain ⟨hlater, steps, own, hsteps, hown, hfails⟩ := hkeeps
    refine ⟨hlater, steps ++ [.abandoned field name d], own ++ [.abandoned field name d],
      ?_, ?_, ?_⟩
    · show t.caller ++ [.abandoned field name d] = _
      rw [hsteps, List.append_assoc]
    · intro rest
      rw [List.append_assoc, hown, List.append_assoc]
      rfl
    · intro d' hd'
      rw [List.filterMap_append] at hd'
      rcases List.mem_append.1 hd' with hd' | hd'
      · exact hfails d' hd'
      · cases List.mem_singleton.1 hd'
        exact hfailing

/-! ## The turn of a field -/

/-- The turn of a field in the evaluation of all fields: what it is found to be after the fields
declared before it have been evaluated, from some record on. -/
def OwnTurn {σ : Type} (engine : Engine σ) (nested : NestedValidation σ) (rules : Fields Rule)
    (force : Bool) (field : String) (start : Store Record σ) (result : FieldResult) : Prop :=
  ∃ (before : Fields Rule) (rule : Rule) (after : Fields Rule) (reports : Fields Report)
    (s t : Store Record σ), rules = before ++ (field, rule) :: after ∧
      engine.judgeAll nested rules force before start = .ok reports s ∧
      engine.judgeWithin nested rules [] field rule force s = .ok result t

/-- With distinct names, the report of a field is what it is found to be at its turn. -/
theorem report_of_turn {before after : Fields Rule} {d : String} {rule : Rule}
    (hdistinct : (before ++ (d, rule) :: after).Distinct) {front back : Fields Report}
    (hfront : ∀ name ∈ front.keys, name ∈ before.keys)
    (hback : ∀ name ∈ back.keys, name ∈ after.keys) (result : FieldResult) :
    Fields.get? (front ++ (match result with
        | .valid => back
        | .checked report => (d, report) :: back)) d =
      (match result with
        | .valid => none
        | .checked report => some report) := by
  have hkeys : (before ++ (d, rule) :: after).keys = before.keys ++ d :: after.keys := by
    simp [Fields.keys]
  rw [Fields.Distinct, hkeys, List.nodup_append, List.nodup_cons] at hdistinct
  have hnotFront : d ∉ front.keys := by
    intro hmem
    exact hdistinct.2.2 d (hfront d hmem) d List.mem_cons_self rfl
  have hnotBack : d ∉ back.keys := fun hmem => hdistinct.2.1.1 (hback d hmem)
  rw [Fields.get?_append hnotFront]
  cases result with
  | valid => exact Fields.get?_eq_none hnotBack
  | checked report =>
    rw [Fields.get?_cons, if_pos rfl]

/-- When all fields are evaluated, each declared field has its turn, and is reported as it is found
to be then. -/
theorem exists_turn {σ : Type} {engine : Engine σ} {nested : NestedValidation σ}
    (hdistinct : rules.Distinct) {d : String} {rule : Rule} (hrule : (d, rule) ∈ rules)
    {force : Bool} {reports : Fields Report} {start finish : Store Record σ}
    (hall : engine.judgeAll nested rules force rules start = .ok reports finish) :
    ∃ before after front back s t result, rules = before ++ (d, rule) :: after ∧
      engine.judgeAll nested rules force before start = .ok front s ∧
      engine.judgeWithin nested rules [] d rule force s = .ok result t ∧
      engine.judgeAll nested rules force after t = .ok back finish ∧
      reports.get? d = (match result with
        | .valid => none
        | .checked report => some report) := by
  obtain ⟨before, after, hrules⟩ := List.append_of_mem hrule
  have hsplit : engine.judgeAll nested rules force (before ++ (d, rule) :: after) start =
      .ok reports finish := by
    rw [← hrules]
    exact hall
  rw [hrules] at hdistinct
  obtain ⟨front, s, others, hbefore, hothers, hreports⟩ := judgeAll_append_eq_ok hsplit
  obtain ⟨result, t, back, hturn, hafter, hothers⟩ := judgeAll_cons_eq_ok hothers
  refine ⟨before, after, front, back, s, t, result, hrules, hbefore, hturn, hafter, ?_⟩
  rw [hreports, hothers]
  exact report_of_turn hdistinct (judgeAll_keys hbefore) (judgeAll_keys hafter) result

/-- The outcome of field rules reports an error of a field exactly when the field is found to have
one at its turn. -/
theorem reportsError_iff {d : String} {force : Bool} {reports : Fields Report}
    {result : FieldResult}
    (hreport : reports.get? d = (match result with
      | .valid => none
      | .checked report => some report)) :
    (if !force && reports.isEmpty then Outcome.valid else .fields reports).ReportsError d ↔
      result.isClean = false := by
  have hget : (if !force && reports.isEmpty then Outcome.valid else .fields reports).report? d =
      reports.get? d := by
    split
    · next hempty =>
      rw [Bool.and_eq_true, List.isEmpty_iff] at hempty
      rw [hempty.2]
      rfl
    · rfl
  rw [Outcome.ReportsError, hget, hreport]
  cases result with
  | valid => simp [FieldResult.isClean]
  | checked report => simp [FieldResult.isClean, List.isEmpty_eq_false_iff]

/-- A field that fails before its turn or after it is found to have errors at its turn, if its
modules and those of the fields it depends on are steady: whichever evaluation comes first, the
second finds what the first has found. -/
theorem not_isClean_of_failsBetween {σ : Type} {engine : Engine σ} {nested : NestedValidation σ}
    (hdistinct : rules.Distinct) (hplain : ∀ field rule, (field, rule) ∈ rules → rule.Plain)
    {d : String} {rule : Rule} (hrule : (d, rule) ∈ rules)
    (hsteady : ∀ other rule, Relation.ReflTransGen (DependsOn rules) d other →
      (other, rule) ∈ rules → engine.Steady nested other rule)
    {force : Bool} {s t : Store Record σ} {result : FieldResult} {start finish : Record}
    (hturn : engine.judgeWithin nested rules [] d rule force s = .ok result t)
    (hfails : engine.FailsBetween nested rules [] d start s.target ∨
      engine.FailsBetween nested rules [] d t.target finish) : result.isClean = false := by
  have hwalk : Walk rules ([] ++ [d]) := Walk.single d
  have hsame : ∀ rule', (d, rule') ∈ rules → rule' = rule := by
    intro rule' hrule'
    have hget := Fields.get?_of_mem hdistinct hrule'
    rw [Fields.get?_of_mem hdistinct hrule, Option.some.injEq] at hget
    exact hget.symm
  obtain ⟨u, hjudge, rfl⟩ := during_eq_ok.1 hturn
  rcases hfails with ⟨_, rule', x, y, r, -, hwalk', hrule', hjudge', hr, -, hlater⟩ |
    ⟨_, rule', x, y, r, -, hwalk', hrule', hjudge', hr, hlater, -⟩
  · cases hsame rule' hrule'
    rw [← hr]
    exact (judge_agrees hdistinct hplain hrule hsteady hwalk' hwalk hjudge' hjudge hlater).1
  · cases hsame rule' hrule'
    rw [← hr]
    exact (judge_agrees hdistinct hplain hrule hsteady hwalk hwalk' hjudge hjudge' hlater).1.symm

/-- Whatever comes after some steps, these are the ones among them that are in no nested run. -/
theorem ownSteps_eq {steps own : List Event}
    (h : ∀ rest, ownSteps 0 (steps ++ rest) = own ++ ownSteps 0 rest) : ownSteps 0 steps = own := by
  have hrest := h []
  rwa [List.append_nil, ownSteps, List.append_nil] at hrest

/-- A field for which a validator is abandoned fails before its turn or after it: during its turn it
is in progress. -/
theorem failsBetween_before_or_after (hdistinct : rules.Distinct) {before after : Fields Rule}
    {d : String} {rule : Rule} (hrules : rules = before ++ (d, rule) :: after) {force : Bool}
    {front back : Fields Report} {result : FieldResult}
    {start s t finish : Store Record (List Event)} {steps : List Event}
    (hbefore : (journaled settings validators limit).judgeAll
      (journaled settings validators limit).validate rules force before start = .ok front s)
    (hturn : (journaled settings validators limit).judgeWithin
      (journaled settings validators limit).validate rules [] d rule force s = .ok result t)
    (hafter : (journaled settings validators limit).judgeAll
      (journaled settings validators limit).validate rules force after t = .ok back finish)
    (hsteps : finish.caller = start.caller ++ steps) (hd : d ∈ failedDependencies steps) :
    (journaled settings validators limit).FailsBetween
      (journaled settings validators limit).validate rules [] d start.target s.target ∨
    (journaled settings validators limit).FailsBetween
      (journaled settings validators limit).validate rules [] d t.target finish.target := by
  have hgoverned : (journaled settings validators limit).Governed
      (journaled settings validators limit).validate rules _ _ := governed_witnessing hdistinct
  have hrule : (d, rule) ∈ rules := by
    rw [hrules]
    exact List.mem_append_right _ List.mem_cons_self
  have hwalk : Walk rules ([] ++ [d]) := Walk.single d
  have hmem : ∀ entry, entry ∈ before ∨ entry ∈ after → entry ∈ rules := by
    intro entry hentry
    rw [hrules, List.mem_append, List.mem_cons]
    exact hentry.imp_right Or.inr
  obtain ⟨u, hjudge, rfl⟩ := during_eq_ok.1 hturn
  obtain ⟨-, xs, ownx, hxs, hownx, hfailsx⟩ := (hgoverned.judgeAll_obeys force before
    (fun entry hentry => hmem entry (Or.inl hentry)) start).keeps hbefore
  obtain ⟨-, ys, owny, hys, howny, hfailsy⟩ :=
    (hgoverned.judge_obeys hwalk hrule force _).keeps hjudge
  obtain ⟨-, zs, ownz, hzs, hownz, hfailsz⟩ := (hgoverned.judgeAll_obeys force after
    (fun entry hentry => hmem entry (Or.inr hentry)) _).keeps hafter
  have hall : finish.caller = start.caller ++
      (xs ++ (.entered rules.keys [d] :: (ys ++ (.returned [] :: zs)))) := by
    rw [hzs]
    show (u.caller ++ [.returned []]) ++ zs = _
    rw [hys]
    show ((s.caller ++ [.entered rules.keys [d]]) ++ ys ++ [.returned []]) ++ zs = _
    rw [hxs]
    simp
  have hown : ownSteps 0 steps =
      ownx ++ (.entered rules.keys [d] :: (owny ++ (.returned [] :: ownz))) := by
    rw [hsteps, List.append_cancel_left_eq] at hall
    rw [hall, hownx]
    show ownx ++ (_ :: ownSteps 0 (ys ++ (.returned [] :: zs))) = _
    rw [howny]
    show ownx ++ (_ :: (owny ++ (_ :: ownSteps 0 zs))) = _
    rw [ownSteps_eq hownz]
  rw [failedDependencies, hown, List.filterMap_append, List.filterMap_cons_none rfl,
    List.filterMap_append, List.filterMap_cons_none rfl, List.mem_append, List.mem_append] at hd
  rcases hd with hd | hd | hd
  · exact Or.inl (hfailsx d hd)
  · -- During the turn the field is in progress, and to depend on it would close a cycle.
    obtain ⟨others, _, _, _, _, hothers, hcycle, -⟩ := hfailsy d hd
    have hinside : d ∈ others := hothers d (List.mem_singleton.2 rfl)
    exact absurd rfl ((List.nodup_append.1 hcycle.nodup).2.2 d hinside d
      (List.mem_singleton.2 rfl))
  · exact Or.inr (hfailsz d hd)

end Witnesses

/-- What becomes of the failures for which validators are abandoned, when rules that are read from
data are validated to the end. The field is evaluated at its own turn, and the outcome reports an
error of it exactly when it is found to have one then. It is found to have one if its modules and
those of the fields it depends on are steady; so if all modules are, no failure is lost, and a
record passes only if no validator has been abandoned. -/
theorem validate_failedDependencies (settings : Settings) (validators : KnownValidators)
    (limit : Nat) {members : Fields Value} {rules : Fields Rule} (hmembers : members.Distinct)
    (hread : Rules.ofValue (.object members) = .ok (.fields rules)) {v : Value} {force : Bool}
    {outcome : Outcome} {after : Store Value (List Event)}
    (hrun : (journaled settings validators limit).validate (.fields rules) force ⟨v, []⟩ =
      .ok outcome after) :
    let engine := journaled settings validators limit
    (∀ d ∈ failedDependencies after.caller,
      ∃ result, engine.OwnTurn engine.validate rules force d ⟨recordOf v, []⟩ result ∧
        (outcome.ReportsError d ↔ result.isClean = false) ∧
        ((∀ other rule, Relation.ReflTransGen (DependsOn rules) d other → (other, rule) ∈ rules →
            engine.Steady engine.validate other rule) → outcome.ReportsError d)) ∧
    ((∀ field rule, (field, rule) ∈ rules → engine.Steady engine.validate field rule) →
      outcome = .valid → failedDependencies after.caller = []) := by
  intro engine
  obtain ⟨hkeys, hplain⟩ := Rules.plain_ofValue hread
  have hdistinct : rules.Distinct := by
    rw [Fields.Distinct, hkeys]
    exact hmembers
  have hgoverned : engine.Governed engine.validate rules _ _ := governed_witnessing hdistinct
  rw [validate_eq_validateBy rfl] at hrun
  obtain ⟨-, reports, finish, hall, rfl, houtcome⟩ := validateFields_eq_ok hrun
  obtain ⟨-, steps, own, hsteps, hown, hfails⟩ :=
    (hgoverned.judgeAll_obeys force rules (fun _ => id) _).keeps hall
  have hjournal : finish.caller = steps := hsteps
  have hlost : ∀ d ∈ failedDependencies finish.caller,
      ∃ result, engine.OwnTurn engine.validate rules force d ⟨recordOf v, []⟩ result ∧
        (outcome.ReportsError d ↔ result.isClean = false) ∧
        ((∀ other rule, Relation.ReflTransGen (DependsOn rules) d other → (other, rule) ∈ rules →
            engine.Steady engine.validate other rule) → outcome.ReportsError d) := by
    intro d hd
    rw [hjournal] at hd
    have hfailing : d ∈ own.filterMap Event.failedDependency? := by
      rwa [failedDependencies, ownSteps_eq hown] at hd
    obtain ⟨_, rule, _, _, _, _, _, hrule, -⟩ := hfails d hfailing
    obtain ⟨before, after, front, back, s, t, result, hrules, hbefore, hturn, hafter, hreport⟩ :=
      exists_turn hdistinct hrule hall
    have hiff : outcome.ReportsError d ↔ result.isClean = false := by
      rw [houtcome]
      exact reportsError_iff hreport
    refine ⟨result, ⟨before, rule, after, front, s, t, hrules, hbefore, hturn⟩, hiff, ?_⟩
    intro hsteady
    exact hiff.2 (not_isClean_of_failsBetween hdistinct hplain hrule hsteady hturn
      (failsBetween_before_or_after hdistinct hrules hbefore hturn hafter hsteps hd))
  refine ⟨hlost, fun hsteady hvalid => List.eq_nil_iff_forall_not_mem.2 fun d hd => ?_⟩
  obtain ⟨_, _, _, hreported⟩ := hlost d hd
  obtain ⟨report, hreport, -⟩ := hreported fun other rule _ hmem => hsteady other rule hmem
  rw [hvalid] at hreport
  cases hreport

/-- Data of rules for two fields, of which `a` has to equal `d`, and `d` has to be there and has
modules. -/
def dependentMembers (modules : Fields Value) : Fields Value :=
  [("a", .object [("equalsTo", .object [("values", .object [("dependsField", .string "d")])])]),
    ("d", .object (("validators", .array [.string "required"]) :: modules))]

/-- The rules that these data describe. -/
def dependentRules (modules : Fields Value) : Fields Rule :=
  [("a", .bare (.specs [("equalsTo", .ofValues [.dependsOn "d"])])),
    ("d", .descriptor ⟨.list ["required"], modules.map fun entry => (entry.1, .value entry.2)⟩)]

/-- A record whose `d` is white space. -/
def spacedRecord : Value := .object [("a", .string "v"), ("d", .string "   ")]

/-- The journal of a run on this record: the validator of `a` is abandoned, and then `d` has its own
turn. -/
def spacedJournal : List Event :=
  [.entered ["a", "d"] ["a"], .entered ["a", "d"] ["a", "d"], .returned ["a"],
    .abandoned "a" "equalsTo" "d", .returned [], .entered ["a", "d"] ["d"], .returned []]

/-- If the white space is trimmed, the validator of `a` is abandoned and the failure of `d` is
reported. -/
theorem validate_failedDependencies_trimmed :
    (dependentMembers [("trimValue", .bool true)]).Distinct ∧
    Rules.ofValue (.object (dependentMembers [("trimValue", .bool true)])) =
      .ok (.fields (dependentRules [("trimValue", .bool true)])) ∧
    ∃ outcome after, (journaled ⟨false⟩ KnownValidators.builtin 1000).validate
        (.fields (dependentRules [("trimValue", .bool true)])) false ⟨spacedRecord, []⟩ =
        .ok outcome after ∧
      failedDependencies after.caller = ["d"] ∧ outcome.ReportsError "d" := by
  have hmembers : (dependentMembers [("trimValue", .bool true)]).Distinct := by decide
  have hread : Rules.ofValue (.object (dependentMembers [("trimValue", .bool true)])) =
      .ok (.fields (dependentRules [("trimValue", .bool true)])) := by
    with_unfolding_all rfl
  have hrun : (journaled ⟨false⟩ KnownValidators.builtin 1000).validate
      (.fields (dependentRules [("trimValue", .bool true)])) false ⟨spacedRecord, []⟩ =
      .ok (.fields [("d", ⟨[("required", .message "This field is required.")], []⟩)])
        ⟨.object [("a", .string "v"), ("d", .string "")], spacedJournal⟩ := by
    with_unfolding_all rfl
  have habandoned : failedDependencies spacedJournal = ["d"] := by
    rfl
  refine ⟨hmembers, hread, _, _, hrun, habandoned, ?_⟩
  obtain ⟨_, _, _, hreported⟩ := (validate_failedDependencies ⟨false⟩ KnownValidators.builtin 1000
    hmembers hread hrun).1 "d" (by simp [habandoned])
  refine hreported fun other rule _ hmem => steady_of_trims rfl fun entry hentry => ?_
  simp only [dependentRules, List.mem_cons, List.not_mem_nil, or_false, Prod.mk.injEq] at hmem
  obtain ⟨rfl, rfl⟩ | ⟨rfl, rfl⟩ := hmem
  · cases hentry
  · rw [List.mem_singleton.1 hentry]
    exact Or.inl rfl

/-- If a default value is put in before the white space is trimmed, the validator of `a` is
abandoned for the failure of `d`, and the record passes. -/
theorem validate_failedDependencies_lost :
    (dependentMembers [("defaultValue", .string "x"), ("trimValue", .bool true)]).Distinct ∧
    Rules.ofValue
        (.object (dependentMembers [("defaultValue", .string "x"), ("trimValue", .bool true)])) =
      .ok (.fields (dependentRules [("defaultValue", .string "x"), ("trimValue", .bool true)])) ∧
    ∃ after, (journaled ⟨false⟩ KnownValidators.builtin 1000).validate
        (.fields (dependentRules [("defaultValue", .string "x"), ("trimValue", .bool true)])) false
        ⟨spacedRecord, []⟩ = .ok .valid after ∧
      failedDependencies after.caller = ["d"] := by
  refine ⟨by decide, ?_, ⟨.object [("a", .string "v"), ("d", .string "x")], spacedJournal⟩, ?_, ?_⟩
  · with_unfolding_all rfl
  · with_unfolding_all rfl
  · rfl

end Engine

end Vetting
