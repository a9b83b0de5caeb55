import Vetting.Proofs.ModuleLocality

/-!
# Evaluating a record at rest

A record is at rest if the modules of every declared field report no errors on it and leave it as it
is. Evaluations never change such a record. If it comes after the end of an evaluation that has been
carried out with the same fields in progress, then the evaluation can be carried out on it as well
(`judge_idles`): what may end an evaluation in an error is an unknown validator, a cycle or a nested
run, and the first two would have ended the earlier one. For that the validators have to ask for the
same dependencies in the same order as before, so that the earlier verdicts on these are needed;
they are the same by `judge_agrees_from`. The induction is the one of that theorem.
-/

set_option autoImplicit false

namespace Vetting

/-- A run ends in a result and leaves its target as it is, whatever the state of the caller. -/
def Run.Idles {τ σ α : Type} (run : Run τ σ α) (t : τ) : Prop :=
  ∀ c, ∃ a c', run ⟨t, c⟩ = .ok a ⟨t, c'⟩

namespace Run.Idles

variable {τ σ α β : Type} {t : τ}

/-- Doing nothing leaves a target at rest. -/
theorem pure (a : α) : Run.Idles (pure a : Run τ σ α) t :=
  fun c => ⟨a, c, rfl⟩

/-- One run after another leaves a target at rest that both leave. -/
theorem bind {x : Run τ σ α} {f : α → Run τ σ β} (hx : x.Idles t)
    (hf : ∀ a c c', x ⟨t, c⟩ = .ok a ⟨t, c'⟩ → (f a).Idles t) : Run.Idles (x >>= f) t := by
  intro c
  obtain ⟨a, c', hrun⟩ := hx c
  obtain ⟨b, c'', hrest⟩ := hf a c c' hrun c'
  exact ⟨b, c'', Run.bind_eq_ok.2 ⟨a, _, hrun, hrest⟩⟩

end Run.Idles

namespace Engine

variable {σ : Type} {engine : Engine σ} {nested : NestedValidation σ} {rules : Fields Rule}

/-- The modules of the declared fields report no errors on a record, and leave it as it is. -/
def AtRest (engine : Engine σ) (nested : NestedValidation σ) (rules : Fields Rule)
    (record : Record) : Prop :=
  ∀ field rule, (field, rule) ∈ rules → ∀ c, ∃ results c',
    engine.runModules nested field rule.canonical rule.canonical.modules .empty ⟨record, c⟩ =
      .ok results ⟨record, c'⟩ ∧ results.errors = []

/-- A run between two events leaves a record at rest if it does so without them. -/
theorem during_idles {α : Type} {first last : Event} {run : Run Record σ α} {record : Record}
    (h : run.Idles record) : (engine.during first last run).Idles record := by
  intro c
  obtain ⟨a, c', hrun⟩ := h (engine.observe first c)
  exact ⟨a, _, during_eq_ok.2 ⟨_, hrun, rfl⟩⟩

/-- A dependency that has been settled is settled again: the same way, and on the last record
without an error. -/
structure SettledAgain (engine : Engine σ) (nested : NestedValidation σ) (rules : Fields Rule)
    (start last : Record) (field : String) (depends : String → Run Record σ Bool) (d : String) :
    Prop where
  alike : SettledAlike engine nested rules start field depends depends d
  idles : ∀ {s t passed}, engine.Later nested rules start s.target → depends d s = .ok passed t →
    engine.Later nested rules t.target last → (depends d).Idles last

section Steps

variable {start last : Record} {field : String} {depends : String → Run Record σ Bool}
  {s t : Store Record σ}

/-- Assembling a call again leaves the record at rest if its dependencies are settled again. -/
theorem assembleCall_idles {params : List BoundParam}
    (hagain : ∀ d ∈ params.filterMap BoundParam.dependency?,
      SettledAgain engine nested rules start last field depends d)
    {call : Except String Call} (hstart : engine.Later nested rules start s.target)
    (hcall : assembleCall depends params s = .ok call t)
    (hlast : engine.Later nested rules t.target last) :
    (assembleCall depends params).Idles last := by
  induction params generalizing s call with
  | nil => exact .pure _
  | cons param rest ih =>
    have hrest : ∀ d ∈ rest.filterMap BoundParam.dependency?,
        SettledAgain engine nested rules start last field depends d :=
      fun d hd => hagain d (mem_dependencies_cons param hd)
    cases param with
    | literal v =>
      obtain ⟨c, u, hc, hmap⟩ := Run.bind_eq_ok.1 hcall
      obtain ⟨-, rfl⟩ := Run.pure_eq_ok.1 hmap
      exact (ih hrest hstart hc).bind fun _ _ _ _ => .pure _
    | predicate hook =>
      obtain ⟨c, u, hc, hmap⟩ := Run.bind_eq_ok.1 hcall
      obtain ⟨-, rfl⟩ := Run.pure_eq_ok.1 hmap
      exact (ih hrest hstart hc).bind fun _ _ _ _ => .pure _
    | dependsOn d =>
      have hd := hagain d (by simp [BoundParam.dependency?])
      have hobeys := assembleCall_obeys rest fun d hd => (hrest d hd).alike.obeys
      obtain ⟨passed, x, hpassed, hgo⟩ := Run.bind_eq_ok.1 hcall
      have hx : engine.Later nested rules s.target x.target :=
        ((hd.alike.obeys s).keeps hpassed).1
      cases passed with
      | false =>
        obtain ⟨-, rfl⟩ := Run.pure_eq_ok.1 hgo
        refine (hd.idles hstart hpassed hlast).bind fun passed' c c' hpassed' => ?_
        have hsame : passed' = false := (hd.alike.agrees hstart hpassed hpassed' hlast).1
        rw [hsame]
        exact .pure _
      | true =>
        simp only [if_true, Run.target_bind] at hgo
        obtain ⟨call', u, hc, hmap⟩ := Run.bind_eq_ok.1 hgo
        obtain ⟨-, rfl⟩ := Run.pure_eq_ok.1 hmap
        have hbetween : engine.Later nested rules x.target last :=
          ((hobeys x).keeps hc).1.trans hlast
        refine (hd.idles hstart hpassed hbetween).bind fun passed' c c' hpassed' => ?_
        have hsame : passed' = true := (hd.alike.agrees hstart hpassed hpassed' hbetween).1
        have htail : Run.Idles (assembleCall depends rest) last :=
          ih hrest (hstart.trans hx) hc
        rw [hsame, if_pos rfl]
        intro c
        exact htail.bind (fun _ _ _ _ => .pure _) c

/-- Running a validator again leaves the record at rest if its dependencies are settled again. -/
theorem check_idles {name : String} {validator : Validator} {spec : Spec} (hplain : spec.Plain)
    (hagain : ∀ d ∈ spec.values.filterMap Param.dependency?,
      SettledAgain engine nested rules start last field depends d)
    {verdict : Verdict} (hstart : engine.Later nested rules start s.target)
    (hrun : engine.check depends field name validator spec s = .ok verdict t)
    (hvalue : last.read field = s.target.read field)
    (hlast : engine.Later nested rules t.target last) :
    (engine.check depends field name validator spec).Idles last := by
  intro c
  unfold check
  rw [Run.target_bind, hplain.bind_eq last s.target, hvalue]
  rcases check_eq_ok hrun with ⟨hskip, -, -⟩ | ⟨hmade, call, u, hcall, htarget, -⟩
  · rw [if_pos hskip]
    exact ⟨_, c, rfl⟩
  · rw [if_neg (Bool.eq_false_iff.1 hmade)]
    have hbound : ∀ d ∈ (spec.bind s.target).filterMap BoundParam.dependency?,
        SettledAgain engine nested rules start last field depends d := by
      rwa [Spec.dependencies_bind]
    rw [htarget] at hlast
    refine (assembleCall_idles hbound hstart hcall hlast).bind (fun call' _ _ _ => ?_) c
    intro c'
    cases call' with
    | error d => exact ⟨_, _, rfl⟩
    | ok call' =>
      simp only [Run.target_bind]
      split
      · exact ⟨_, c', rfl⟩
      · exact ⟨_, c', rfl⟩

/-- Running all validators of a field again leaves the record at rest if their dependencies are
settled again. -/
theorem checkAll_idles {found : List (String × Validator × Spec)}
    (hplain : ∀ entry ∈ found, entry.2.2.Plain)
    (hagain : ∀ entry ∈ found, ∀ d ∈ entry.2.2.values.filterMap Param.dependency?,
      SettledAgain engine nested rules start last field depends d)
    {verdicts : List (String × Verdict)} (hstart : engine.Later nested rules start s.target)
    (hrun : engine.checkAll depends field found s = .ok verdicts t)
    (hvalue : last.read field = s.target.read field)
    (hlast : engine.Later nested rules t.target last) :
    (engine.checkAll depends field found).Idles last := by
  induction found generalizing s verdicts with
  | nil => exact .pure _
  | cons entry rest ih =>
    obtain ⟨name, validator, spec⟩ := entry
    have hfirst := hagain (name, validator, spec) List.mem_cons_self
    have hrest := fun entry hentry => hagain entry (List.mem_cons_of_mem _ hentry)
    obtain ⟨verdict, u, hcheck, hrun⟩ := Run.bind_eq_ok.1 hrun
    obtain ⟨others, w, hothers, hrun⟩ := Run.bind_eq_ok.1 hrun
    obtain ⟨-, rfl⟩ := Run.pure_eq_ok.1 hrun
    have hu := (check_obeys validator (fun d hd => (hfirst d hd).alike.obeys)
      (fun _ _ _ _ _ h => h) s).keeps hcheck
    have hw := (checkAll_obeys rest (fun entry hentry d hd => (hrest entry hentry d hd).alike.obeys)
      (fun _ _ _ _ _ _ _ h => h) u).keeps hothers
    have hread : last.read field = u.target.read field := by
      rw [hvalue, hu.2 field (List.mem_singleton.2 rfl)]
    have hhead : (engine.check depends field name validator spec).Idles last :=
      check_idles (hplain (name, validator, spec) List.mem_cons_self) hfirst hstart hcheck hvalue
        (hw.1.trans hlast)
    have htail : (engine.checkAll depends field rest).Idles last :=
      ih (fun entry hentry => hplain entry (List.mem_cons_of_mem _ hentry)) hrest
        (hstart.trans hu.1) hothers hread
    exact hhead.bind fun _ _ _ _ => htail.bind fun _ _ _ _ => .pure _

end Steps

section Declared

variable (hdistinct : rules.Distinct)
  (hplain : ∀ field rule, (field, rule) ∈ rules → rule.Plain) {start last : Record}
  (hsteady : ∀ field rule, (field, rule) ∈ rules →
    engine.SteadyFrom nested field rule (start.read field))
  (hrest : engine.AtRest nested rules last)

include hdistinct hplain hsteady hrest

omit hrest in
/-- A dependency that is settled while a field is in progress is settled again if judging it is. -/
theorem dependencyPasses_again {inProgress : List String} {field d : String}
    (hwalk : Walk rules (inProgress ++ [field])) (hdep : DependsOn rules field d)
    (hidles : ∀ {rule s t result}, (d, rule) ∈ rules → d ∉ inProgress ++ [field] →
      engine.Later nested rules start s.target →
        engine.judge nested (engine.dependencyPasses nested rules (inProgress ++ [field] ++ [d])) d
          rule false s = .ok result t →
        engine.Later nested rules t.target last →
          (engine.judge nested (engine.dependencyPasses nested rules (inProgress ++ [field] ++ [d]))
            d rule false).Idles last) :
    SettledAgain engine nested rules start last field
      (engine.dependencyPasses nested rules (inProgress ++ [field])) d := by
  refine ⟨dependencyPasses_alike hdistinct hwalk hwalk hdep
    fun {rule' _ _ _ _ _ _} hnext hnew _ hstart hjudge hjudge' hlater =>
      judge_agrees_from hdistinct hplain hnext (fun other rule _ => hsteady other rule)
        (hwalk.extend hdep hnew) (hwalk.extend hdep hnew) hstart hjudge hjudge' hlater, ?_⟩
  intro s t passed hstart hpassed hlast
  obtain ⟨hnew, ⟨hnone, -, -⟩ | ⟨rule', x, y, result, hsome, hjudge, hx, hy, -⟩⟩ :=
    dependencyPasses_eq_ok hpassed
  · rw [dependencyPasses_undeclared hnew hnone]
    exact during_idles (.pure true)
  · rw [← hx] at hstart
    rw [← hy] at hlast
    rw [dependencyPasses_declared hnew hsome]
    exact during_idles ((hidles (Fields.mem_of_get? hsome) hnew hstart hjudge hlast).bind
      fun _ _ _ _ => .pure _)

/-- What has been evaluated once can be evaluated again on a record that is at rest and comes later.
-/
theorem judge_idles {inProgress : List String} {field : String} {rule : Rule}
    (hrule : (field, rule) ∈ rules) (hwalk : Walk rules (inProgress ++ [field])) {force : Bool}
    {s t : Store Record σ} {result : FieldResult}
    (hstart : engine.Later nested rules start s.target)
    (hrun : engine.judge nested (engine.dependencyPasses nested rules (inProgress ++ [field]))
      field rule force s = .ok result t)
    (hlast : engine.Later nested rules t.target last) :
    (engine.judge nested (engine.dependencyPasses nested rules (inProgress ++ [field]))
      field rule force).Idles last := by
  induction hidle : (idle rules (inProgress ++ [field])).length using Nat.strong_induction_on
    generalizing inProgress field rule force s t result with
  | _ n ih =>
    subst hidle
    have hgoverned : engine.Governed nested rules _ _ := governed_advancing hdistinct
    have hget := Fields.get?_of_mem hdistinct hrule
    have hagain : ∀ d ∈ rule.canonical.dependencies,
        SettledAgain engine nested rules start last field
          (engine.dependencyPasses nested rules (inProgress ++ [field])) d := by
      intro d hd
      have hdep : DependsOn rules field d := ⟨rule, hrule, hd⟩
      refine dependencyPasses_again hdistinct hplain hsteady hwalk hdep
        fun {rule' _ _ _} hnext hnew hstart hjudge hlast => ?_
      have hless : (idle rules (inProgress ++ [field] ++ [d])).length <
          (idle rules (inProgress ++ [field])).length :=
        length_idle_lt (List.mem_map.2 ⟨_, hnext, rfl⟩) hnew
      exact ih _ hless hnext (hwalk.extend hdep hnew) hstart hjudge hlast rfl
    obtain ⟨found, results, u, verdicts, hfound, hmodules, hchecks, -, -⟩ := judge_isClean hrun
    have hu : engine.Later nested rules start u.target :=
      hstart.trans ((hgoverned.prepares hwalk hrule s).keeps hmodules).1
    have hagainFound : ∀ entry ∈ found, ∀ d ∈ entry.2.2.values.filterMap Param.dependency?,
        SettledAgain engine nested rules start last field
          (engine.dependencyPasses nested rules (inProgress ++ [field])) d :=
      fun entry hentry d hd => hagain d (mem_dependencies_of_findAll hfound hentry hd)
    have hsteps : engine.Later nested rules u.target t.target :=
      ((hgoverned.checkAll_obeys hwalk hrule hfound u).keeps hchecks).1
    intro c
    obtain ⟨results', c', hidle, hnone⟩ := hrest field rule hrule c
    -- A pass that reported errors would be followed by passes with errors, but this one has none.
    obtain ⟨hclean, hvalue⟩ := (hsteady field rule hrule).again (hstart.declared field rule hget)
      ⟨s, results, u, hmodules, rfl, rfl, rfl⟩ ((hsteps.trans hlast).declared field rule hget)
      ⟨⟨last, c⟩, results', ⟨last, c'⟩, hidle, rfl, rfl, rfl⟩
    rw [hnone] at hclean
    have hchecksAgain : (engine.checkAll
        (engine.dependencyPasses nested rules (inProgress ++ [field])) field found).Idles last :=
      checkAll_idles
        (fun entry hentry => hplain field rule hrule _ _ (mem_of_findAll hfound hentry))
        hagainFound hu hchecks (hvalue hclean.symm) hlast
    obtain ⟨verdicts', c'', hverdicts⟩ := hchecksAgain c'
    exact ⟨_, c'', judge_eq_ok.2 ⟨found, results', _, verdicts', hfound, hidle, hverdicts, rfl⟩⟩

/-- All fields that have been evaluated once can be evaluated again on a record that is at rest and
comes later. -/
theorem judgeAll_idles {force : Bool} {turns : List (String × Rule)}
    (hturns : ∀ entry ∈ turns, entry ∈ rules) {s t : Store Record σ} {reports : Fields Report}
    (hstart : engine.Later nested rules start s.target)
    (hrun : engine.judgeAll nested rules force turns s = .ok reports t)
    (hlast : engine.Later nested rules t.target last) :
    (engine.judgeAll nested rules force turns).Idles last := by
  induction turns generalizing s reports with
  | nil => exact .pure _
  | cons turn rest ih =>
    obtain ⟨field, rule⟩ := turn
    have hgoverned : engine.Governed nested rules _ _ := governed_advancing hdistinct
    have hrule : (field, rule) ∈ rules := hturns (field, rule) List.mem_cons_self
    have hothersTurns := fun entry hentry => hturns entry (List.mem_cons_of_mem _ hentry)
    obtain ⟨result, u, others, hfirst, hothers, -⟩ := judgeAll_cons_eq_ok hrun
    have hu : engine.Later nested rules s.target u.target :=
      ((hgoverned.judgeWithin_obeys hrule force s).keeps hfirst).1
    have ht : engine.Later nested rules u.target t.target :=
      ((hgoverned.judgeAll_obeys force rest hothersTurns u).keeps hothers).1
    obtain ⟨w, hjudge, rfl⟩ := during_eq_ok.1 hfirst
    have hwalk : Walk rules ([] ++ [field]) := Walk.single field
    have hhead : (engine.judgeWithin nested rules [] field rule force).Idles last := by
      refine during_idles (judge_idles hdistinct hplain hsteady hrest hrule hwalk ?_ hjudge
        (ht.trans hlast))
      exact hstart
    have htail : (engine.judgeAll nested rules force rest).Idles last :=
      ih hothersTurns (hstart.trans hu) hothers
    refine hhead.bind fun result' _ _ _ => htail.bind fun others' _ _ _ => ?_
    cases result' with
    | valid => exact .pure _
    | checked report => exact .pure _

end Declared

/-- Nothing is reported when the first field passes and nothing is reported of the others. -/
theorem judgeAll_cons_eq_nil {field : String} {rule : Rule} {rest : List (String × Rule)}
    {force : Bool} {s t : Store Record σ} {reports : Fields Report}
    (h : engine.judgeAll nested rules force ((field, rule) :: rest) s = .ok reports t) :
    ∃ result u others, engine.judgeWithin nested rules [] field rule force s = .ok result u ∧
      engine.judgeAll nested rules force rest u = .ok others t ∧
      (reports = [] ↔ result.passes = true ∧ others = []) := by
  obtain ⟨result, u, others, hfirst, hothers, rfl⟩ := judgeAll_cons_eq_ok h
  refine ⟨result, u, others, hfirst, hothers, ?_⟩
  cases result with
  | valid => exact (and_iff_right rfl).symm
  | checked report => exact iff_of_false nofun fun h => nomatch h.1

/-- Of two evaluations of fields, one after the other, the second reports errors exactly when the
first does. -/
theorem judgeAll_agrees (hdistinct : rules.Distinct)
    (hplain : ∀ field rule, (field, rule) ∈ rules → rule.Plain) {start : Record}
    (hsteady : ∀ field rule, (field, rule) ∈ rules →
      engine.SteadyFrom nested field rule (start.read field))
    {turns : List (String × Rule)} (hturns : ∀ entry ∈ turns, entry ∈ rules)
    {s t s' t' : Store Record σ} {reports reports' : Fields Report}
    (hstart : engine.Later nested rules start s.target)
    (hrun : engine.judgeAll nested rules false turns s = .ok reports t)
    (hrun' : engine.judgeAll nested rules false turns s' = .ok reports' t')
    (hlater : engine.Later nested rules t.target s'.target) : reports' = [] ↔ reports = [] := by
  induction turns generalizing s s' reports reports' with
  | nil =>
    obtain ⟨rfl, -⟩ := Run.pure_eq_ok.1 hrun
    obtain ⟨rfl, -⟩ := Run.pure_eq_ok.1 hrun'
    exact Iff.rfl
  | cons turn rest ih =>
    obtain ⟨field, rule⟩ := turn
    have hgoverned : engine.Governed nested rules _ _ := governed_advancing hdistinct
    have hrule : (field, rule) ∈ rules := hturns (field, rule) List.mem_cons_self
    have hothersTurns := fun entry hentry => hturns entry (List.mem_cons_of_mem _ hentry)
    obtain ⟨result, u, others, hfirst, hothers, hnil⟩ := judgeAll_cons_eq_nil hrun
    obtain ⟨result', u', others', hfirst', hothers', hnil'⟩ := judgeAll_cons_eq_nil hrun'
    have hu : engine.Later nested rules s.target u.target :=
      ((hgoverned.judgeWithin_obeys hrule false s).keeps hfirst).1
    have hu' : engine.Later nested rules s'.target u'.target :=
      ((hgoverned.judgeWithin_obeys hrule false s').keeps hfirst').1
    have ht : engine.Later nested rules u.target t.target :=
      ((hgoverned.judgeAll_obeys false rest hothersTurns u).keeps hothers).1
    have hrest := ih hothersTurns (hstart.trans hu) hothers hothers' (hlater.trans hu')
    obtain ⟨w, hjudge, rfl⟩ := during_eq_ok.1 hfirst
    obtain ⟨w', hjudge', rfl⟩ := during_eq_ok.1 hfirst'
    have hwalk : Walk rules ([] ++ [field]) := Walk.single field
    have hsame : result'.isClean = result.isClean := by
      refine (judge_agrees_from hdistinct hplain hrule (fun other rule _ => hsteady other rule)
        hwalk hwalk ?_ hjudge hjudge' (ht.trans hlater)).1
      exact hstart
    obtain ⟨_, _, _, _, _, _, _, _, hpasses⟩ := judge_isClean hjudge
    obtain ⟨_, _, _, _, _, _, _, _, hpasses'⟩ := judge_isClean hjudge'
    rw [hnil, hnil', hpasses rfl, hpasses' rfl, hsame, hrest]

end Engine

end Vetting
