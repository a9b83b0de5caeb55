import Vetting.Proofs.RunFrame

/-!
# Fields in progress

While the validators of a field are checked, other fields are settled on which they depend, and
the modules of these write into the record. They never write into a field in progress: a dependency
on such a field closes a cycle and is an error, before any module of it runs. So settling a
dependency leaves all fields in progress as they are, however it ends (`dependencyPasses_spares`),
and all validators of a field look at the one value that its modules have left
(`checkAll_spares`), which the field still has when its evaluation is over (`judgeWithin_settled`).

In particular a field that is blank in the end has been blank for each of its validators, and an
engine that is not strict has passed over all of them but those of presence: fields are optional by
default (`judgeField_blank`).
-/

set_option autoImplicit false

namespace Vetting

/-- Runs that leave some fields of a record as they are, however they end. -/
def sparing {σ : Type} (kept : List String) : Conduct Record σ :=
  .changing (fun r r' => ∀ field ∈ kept, r'.get? field = r.get? field) (fun _ _ _ => rfl)
    fun _ _ _ h h' field hfield => (h' field hfield).trans (h field hfield)

namespace Engine

variable {σ : Type} {engine : Engine σ} {nested : NestedValidation σ} {rules : Fields Rule}
  {depends : String → Run Record σ Bool} {kept : List String} {field : String}

/-- A module spares all fields but its own. -/
theorem runModule_spares (hfield : field ∉ kept) (form : CanonicalForm) (config : Configuration)
    (module : Module σ) :
    (engine.runModule nested field form config module).Obeys (sparing kept) := by
  apply runModule_changing
  intro r v other hother
  exact Fields.get?_put_of_ne r v fun heq => hfield (heq ▸ hother)

/-- The validators of a field spare what settling dependencies spares. -/
theorem checkAll_spares (hdepends : ∀ d, (depends d).Obeys (sparing kept))
    (found : List (String × Validator × Spec)) :
    (engine.checkAll depends field found).Obeys (sparing kept) :=
  checkAll_obeys found (fun _ _ d _ => hdepends d) fun _ _ _ _ _ _ _ h => h

/-- Judging a field spares all fields but the field itself that settling its dependencies spares. -/
theorem judge_spares (hfield : field ∉ kept) (hdepends : ∀ d, (depends d).Obeys (sparing kept))
    (rule : Rule) (force : Bool) :
    (engine.judge nested depends field rule force).Obeys (sparing kept) := by
  refine judge_obeys force (fun _ _ s => (sparing kept).refl s) ?_ fun found _ =>
    checkAll_spares hdepends found
  exact runModules_obeys _ (fun entry _ module _ => runModule_spares hfield _ _ _) .empty

/-- Settling a dependency leaves every field in progress as it is, however it ends. The induction is
on the declared fields that are not in progress: a field in progress is never judged again, and a
further field is judged with itself in progress. -/
theorem dependencyPasses_spares (engine : Engine σ) (nested : NestedValidation σ)
    (rules : Fields Rule) (inProgress : List String) (d : String) :
    (engine.dependencyPasses nested rules inProgress d).Obeys (sparing inProgress) := by
  induction hidle : (idle rules inProgress).length using Nat.strong_induction_on
    generalizing inProgress d with
  | _ n ih =>
    subst hidle
    by_cases hnew : d ∈ inProgress
    · rw [dependencyPasses_of_mem hnew]
      exact fun s => Run.obeysAt_throw ((sparing inProgress).refl s)
    · cases hget : rules.get? d with
      | none =>
        rw [dependencyPasses_undeclared hnew hget]
        exact during_changing (Run.obeys_pure _)
      | some rule =>
        have hdeclared : d ∈ rules.keys := (Fields.get?_isSome_iff rules d).1 (by rw [hget]; rfl)
        have hlonger : ∀ next, (engine.dependencyPasses nested rules (inProgress ++ [d]) next).Obeys
            (sparing (inProgress ++ [d])) :=
          fun next => ih _ (length_idle_lt hdeclared hnew) _ next rfl
        have hdepends : ∀ next,
            (engine.dependencyPasses nested rules (inProgress ++ [d]) next).Obeys
              (sparing inProgress) :=
          fun next => (hlonger next).mono
            (fun h other hother => h other (List.mem_append_left _ hother))
            fun h other hother => h other (List.mem_append_left _ hother)
        rw [dependencyPasses_declared hnew hget]
        refine during_changing ?_
        exact (judge_spares hnew hdepends rule false).bind fun _ => Run.obeys_pure _

/-! ## The value that is checked -/

/-- A value stands in a field throughout its checks: each validator finds it there when its turn
comes, and it is still there when the validator is called, with its dependencies settled. -/
def ChecksOn (engine : Engine σ) (depends : String → Run Record σ Bool) (field : String)
    (found : List (String × Validator × Spec)) (s : Store Record σ) (value : Option Value) : Prop :=
  ∀ front name validator spec back verdicts t, found = front ++ (name, validator, spec) :: back →
    engine.checkAll depends field front s = .ok verdicts t →
      t.target.get? field = value ∧
        ∀ call u, assembleCall depends (spec.bind t.target) t = .ok (.ok call) u →
          u.target.get? field = value

/-- What settling dependencies spares stands there throughout the checks. -/
theorem checksOn_of_spares (hdepends : ∀ d, (depends d).Obeys (sparing [field]))
    (found : List (String × Validator × Spec)) (s : Store Record σ) :
    engine.ChecksOn depends field found s (s.target.get? field) := by
  intro front name validator spec back verdicts t _ hfront
  have hturn : t.target.get? field = s.target.get? field :=
    (checkAll_spares hdepends front s).keeps hfront field List.mem_cons_self
  refine ⟨hturn, fun call u hcall => ?_⟩
  have hspared := assembleCall_obeys (spec.bind t.target) (fun d _ => hdepends d) t
  exact (hspared.keeps hcall field List.mem_cons_self).trans hturn

/-- An evaluation whose modules run to the end leaves what the checks leave. -/
theorem judge_leaves {rule : Rule} {found : List (String × Validator × Spec)}
    (hfound : engine.findAll rule.canonical.validators = .ok found) {results : Contributions}
    {s u : Store Record σ}
    (hmodules : engine.runModules nested field rule.canonical rule.canonical.modules .empty s =
      .ok results u) (force : Bool) :
    (engine.judge nested depends field rule force).leaves s =
      (engine.checkAll depends field found).leaves u := by
  unfold Run.leaves judge
  rw [hfound, Run.ofExcept_ok, pure_bind, Run.bind_of_ok hmodules]
  cases hchecks : engine.checkAll depends field found u with
  | ok verdicts t =>
    rw [Run.bind_of_ok hchecks]
    dsimp only
    split
    · next hrun => split at hrun <;> cases hrun <;> rfl
    · next hrun => split at hrun <;> cases hrun
  | error e t => rw [Run.bind_of_error hchecks]

/-- What a run between two events leaves is what it leaves after the first. -/
theorem during_leaves {τ α : Type} (first last : Event) (run : Run τ σ α) (s : Store τ σ) :
    ((engine.during first last run).leaves s).target =
      (run.leaves ⟨s.target, engine.observe first s.caller⟩).target := by
  have hnotify : (engine.notify first : Run τ σ Unit) s =
      .ok () ⟨s.target, engine.observe first s.caller⟩ := rfl
  unfold Run.leaves during
  rw [Run.bind_of_ok hnotify]
  unfold Run.lastly
  cases run ⟨s.target, engine.observe first s.caller⟩ <;> rfl

/-- Evaluating a field that is not in progress leaves the fields in progress as they are, whether it
ends in a result or in an error. Once the modules of the field have run to the end, the field keeps
the value that they have left to the end of its evaluation, and this is the value that all its
validators are called on. -/
theorem judgeWithin_settled (engine : Engine σ) (nested : NestedValidation σ)
    (rules : Fields Rule) (inProgress : List String) (field : String) (hnew : field ∉ inProgress)
    (rule : Rule) (force : Bool) (s : Store Record σ) :
    (∀ other ∈ inProgress,
      ((engine.judgeWithin nested rules inProgress field rule force).leaves s).target.get? other =
        s.target.get? other) ∧
    ∀ found results u, engine.findAll rule.canonical.validators = .ok found →
      engine.runModules nested field rule.canonical rule.canonical.modules .empty
          ⟨s.target, engine.observe (.entered rules.keys (inProgress ++ [field])) s.caller⟩ =
        .ok results u →
      ((engine.judgeWithin nested rules inProgress field rule force).leaves s).target.get? field =
          u.target.get? field ∧
        engine.ChecksOn (engine.dependencyPasses nested rules (inProgress ++ [field])) field found u
          (u.target.get? field) := by
  have hspares := dependencyPasses_spares engine nested rules (inProgress ++ [field])
  constructor
  · have hothers : ∀ d, (engine.dependencyPasses nested rules (inProgress ++ [field]) d).Obeys
        (sparing inProgress) :=
      fun d => (hspares d).mono (fun h other hother => h other (List.mem_append_left _ hother))
        fun h other hother => h other (List.mem_append_left _ hother)
    have hobeys : (engine.judgeWithin nested rules inProgress field rule force).Obeys
        (sparing inProgress) :=
      during_changing (judge_spares hnew hothers rule force)
    exact (hobeys s).leaves
  · intro found results u hfound hmodules
    have hown : ∀ d, (engine.dependencyPasses nested rules (inProgress ++ [field]) d).Obeys
        (sparing [field]) :=
      fun d => (hspares d).mono (fun h other hother => h other (List.mem_append_right _ hother))
        fun h other hother => h other (List.mem_append_right _ hother)
    refine ⟨?_, checksOn_of_spares hown found u⟩
    rw [judgeWithin, during_leaves, judge_leaves hfound hmodules]
    exact (checkAll_spares hown found u).leaves field List.mem_cons_self

/-- The rule of a repeated password, which is trimmed, and then has to be the password. -/
def retypedRule : Rule :=
  .descriptor ⟨.specs [("equalsTo", .ofValues [.dependsOn "password"])],
    [("trimValue", .value (.bool true))]⟩

/-- A password is trimmed, too, and only when the repeated one asks for it. -/
def passwordRules : Fields Rule :=
  [("repeat", retypedRule),
    ("password", .descriptor ⟨.specs [], [("trimValue", .value (.bool true))]⟩)]

/-- A repeated password is evaluated while a name is in progress. The name keeps its blanks, and the
repeated password stays as its own module has left it. -/
theorem judgeWithin_settled_repeat :
    "repeat" ∉ ["name"] ∧
    ∃ t, t = (((standard : Engine Unit).judgeWithin standard.validate passwordRules ["name"]
        "repeat" retypedRule false).leaves
          ⟨[("name", .string " n"), ("password", .string "x "), ("repeat", .string " x")],
            ()⟩).target ∧
      t.get? "name" = some (.string " n") ∧ t.get? "repeat" = some (.string "x") := by
  have hnew : "repeat" ∉ ["name"] := by decide
  obtain ⟨hkept, hown⟩ := judgeWithin_settled (standard : Engine Unit) standard.validate
    passwordRules ["name"] "repeat" hnew retypedRule false
    ⟨[("name", .string " n"), ("password", .string "x "), ("repeat", .string " x")], ()⟩
  obtain ⟨hvalue, -⟩ := hown _ .empty
    ⟨[("name", .string " n"), ("password", .string "x "), ("repeat", .string "x")], ()⟩ rfl
    (by with_unfolding_all rfl)
  exact ⟨hnew, _, rfl, hkept "name" List.mem_cons_self, hvalue⟩

/-! ## A blank field -/

/-- Where a field is blank and stays as it is while dependencies are settled, an engine that is not
strict passes over every validator but those of presence. -/
theorem checkAll_blank (hlenient : engine.settings.strict = false)
    (hdepends : ∀ d, (depends d).Obeys (sparing [field]))
    {found : List (String × Validator × Spec)} {verdicts : List (String × Verdict)}
    {s t : Store Record σ} (hrun : engine.checkAll depends field found s = .ok verdicts t)
    (hblank : (s.target.read field).isBlank = true) {name : String} {verdict : Verdict}
    (hmem : (name, verdict) ∈ verdicts) (hmade : verdict ≠ .skipped) :
    ∃ validator spec, (name, validator, spec) ∈ found ∧ validator.presence = true := by
  induction found generalizing s verdicts with
  | nil =>
    obtain ⟨rfl, -⟩ := Run.pure_eq_ok.1 hrun
    cases hmem
  | cons entry rest ih =>
    obtain ⟨key, validator, spec⟩ := entry
    obtain ⟨first, u, hcheck, hrun⟩ := Run.bind_eq_ok.1 hrun
    obtain ⟨others, w, hothers, hrun⟩ := Run.bind_eq_ok.1 hrun
    obtain ⟨rfl, rfl⟩ := Run.pure_eq_ok.1 hrun
    rcases List.mem_cons.1 hmem with heq | hmem
    · cases heq
      refine ⟨validator, spec, List.mem_cons_self, ?_⟩
      rcases check_eq_ok hcheck with ⟨-, hskipped, -⟩ | ⟨hlooked, -⟩
      · exact absurd hskipped hmade
      · simpa [hlenient, hblank] using hlooked
    · have hspared : (engine.check depends field key validator spec).Obeys (sparing [field]) :=
        check_obeys validator (fun d _ => hdepends d) fun _ _ _ _ _ h => h
      have hkept : u.target.get? field = s.target.get? field :=
        (hspared s).keeps hcheck field List.mem_cons_self
      have hstill : (u.target.read field).isBlank = true := by
        rwa [Fields.read, hkept, ← Fields.read]
      obtain ⟨validator, spec, hentry, hpresence⟩ := ih hothers hstill hmem
      exact ⟨validator, spec, List.mem_cons_of_mem _ hentry, hpresence⟩

/-- The errors of the validators of a field come from verdicts. -/
theorem mem_failures {verdicts : List (String × Verdict)} {name : String} {finding : Finding}
    (h : (name, finding) ∈ failures verdicts) :
    ∃ text, (name, .failed text) ∈ verdicts ∧ finding = .message text := by
  obtain ⟨⟨key, verdict⟩, hmem, heq⟩ := List.mem_filterMap.1 h
  cases verdict with
  | failed text =>
    cases heq
    exact ⟨text, hmem, rfl⟩
  | skipped => cases heq
  | abandoned d => cases heq
  | passed => cases heq

/-- Fields are optional by default. If an engine that is not strict evaluates a field and the field
is blank in the end, then each error of the report has been handed back by the modules of the field,
in their pass on the record as it was, or stands under the name of a validator of presence. -/
theorem judgeField_blank (engine : Engine σ) (hlenient : engine.settings.strict = false)
    (rules : Fields Rule) (field : String) (rule : Rule) (force : Bool) (s t : Store Record σ)
    (report : Report) (hrun : engine.judgeField rules field rule force s = .ok (.checked report) t)
    (hblank : (t.target.read field).isBlank = true) :
    ∃ results u,
      engine.runModules
          (engine.nestedWithin engine.nestingLimit ((Rules.fields rules).weight + rule.weight))
          field rule.canonical rule.canonical.modules .empty
          ⟨s.target, engine.observe (.entered rules.keys [field]) s.caller⟩ = .ok results u ∧
        ∀ name finding, (name, finding) ∈ report.errors →
          (name, finding) ∈ results.errors ∨
            name ∈ rule.canonical.validators.keys ∧
              ∃ validator, engine.validators.get? name = some validator ∧
                validator.presence = true := by
  obtain ⟨w, hjudge, rfl⟩ := during_eq_ok.1 hrun
  obtain ⟨found, results, u, verdicts, hfound, hmodules, hchecks, hresult⟩ := judge_eq_ok.1 hjudge
  have hdepends := dependencyPasses_spares engine
    (engine.nestedWithin engine.nestingLimit ((Rules.fields rules).weight + rule.weight)) rules
    [field]
  -- The field is as the modules have left it at every check and in the end.
  have hkept : w.target.get? field = u.target.get? field :=
    (checkAll_spares hdepends found u).keeps hchecks field List.mem_cons_self
  have hafter : (u.target.read field).isBlank = true := by
    rwa [Fields.read, ← hkept, ← Fields.read]
  have herrors : report.errors = (failures verdicts).merge results.errors := by
    split at hresult
    · cases hresult
    · cases hresult
      rfl
  refine ⟨results, u, hmodules, fun name finding hmem => ?_⟩
  rw [herrors] at hmem
  rcases Fields.mem_merge hmem with hfailed | hmodule
  · obtain ⟨text, hverdict, -⟩ := mem_failures hfailed
    obtain ⟨validator, spec, hentry, hpresence⟩ :=
      checkAll_blank hlenient hdepends hchecks hafter hverdict (by simp)
    have hspec : (name, spec) ∈ rule.canonical.validators := mem_of_findAll hfound hentry
    exact Or.inr ⟨List.mem_map.2 ⟨_, hspec, rfl⟩, validator, get?_of_findAll hfound hentry,
      hpresence⟩
  · exact Or.inl hmodule

/-- The rule of a nickname, which is trimmed, and then has to be there and to have three
characters. -/
def nicknameRule : Rule :=
  .descriptor ⟨.specs [("minLength", .ofValues [.literal (.ofInt 3)]), ("required", .empty)],
    [("trimValue", .value (.bool true))]⟩

/-- A nickname of nothing but white space is reported as missing and not as too short. -/
theorem judgeField_blank_nick :
    ∃ report t,
      (standard : Engine Unit).judgeField [] "nick" nicknameRule false
        ⟨[("nick", .string "  ")], ()⟩ = .ok (.checked report) t ∧
      (t.target.read "nick").isBlank = true ∧ Fields.keys report.errors = ["required"] ∧
      ∀ name finding, (name, finding) ∈ report.errors →
        ∃ validator, (standard : Engine Unit).validators.get? name = some validator ∧
          validator.presence = true := by
  have hrun : (standard : Engine Unit).judgeField [] "nick" nicknameRule false
      ⟨[("nick", .string "  ")], ()⟩ =
        .ok (.checked ⟨[("required", .message "This field is required.")], []⟩)
          ⟨[("nick", .string "")], ()⟩ := by
    with_unfolding_all rfl
  refine ⟨_, _, hrun, rfl, rfl, fun name finding hmem => ?_⟩
  obtain ⟨results, u, hmodules, horigin⟩ :=
    judgeField_blank standard rfl [] "nick" nicknameRule false _ _ _ hrun rfl
  have hpass : (.ok results u : EStateM.Result SetupError (Store Record Unit) Contributions) =
      .ok .empty ⟨[("nick", .string "")], ()⟩ := by
    rw [← hmodules]
    with_unfolding_all rfl
  cases hpass
  rcases horigin name finding hmem with hmodule | ⟨-, hpresence⟩
  · cases hmodule
  · exact hpresence

end Engine

end Vetting
