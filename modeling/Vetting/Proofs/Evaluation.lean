import Vetting.Engine.Validate
import Vetting.Proofs.RunConduct
import Mathlib.Data.List.Chain
import Mathlib.Data.List.Nodup
import Mathlib.Tactic.SplitIfs

/-!
# The evaluation of fields under a conduct

Evaluating a field settles the fields that it depends on first, with itself in progress, and these
settle theirs. The fields in progress are a `Walk` in the graph of dependencies that never meets a
field twice, and what happens while they are in progress obeys a conduct that may depend on them.
`Governed` lists what the single steps owe: to enter a field and come back from it, to run its
modules, to close a cycle, to meet an unknown validator, to abandon a validator. Whatever obeys
these laws is obeyed by whole evaluations (`Governed.judge_obeys`), by the settling of a dependency
and by the evaluation of all fields of a rule map; the induction on the declared fields that are not
in progress is made here once.
-/

set_option autoImplicit false

namespace Vetting

/-- The fields that the validators of a canonical rule depend on. -/
def CanonicalForm.dependencies (rule : CanonicalForm) : List String :=
  rule.validators.flatMap fun entry => entry.2.values.filterMap Param.dependency?

/-- A field of a rule map has a validator that depends on the other one. -/
def DependsOn (rules : Fields Rule) (field other : String) : Prop :=
  ∃ rule, (field, rule) ∈ rules ∧ other ∈ rule.canonical.dependencies

/-- Fields that can be in progress together: each depends on the next one, and none occurs twice. -/
structure Walk (rules : Fields Rule) (inProgress : List String) : Prop where
  nodup : inProgress.Nodup
  linked : inProgress.IsChain (DependsOn rules)

namespace Walk

variable {rules : Fields Rule} {inProgress : List String} {field other : String}

/-- A single field is a walk. -/
theorem single (field : String) : Walk rules [field] :=
  ⟨List.nodup_singleton field, List.isChain_singleton field⟩

/-- A walk goes on to a field that its last one depends on and that is not in it. -/
theorem extend (h : Walk rules (inProgress ++ [field])) (hdep : DependsOn rules field other)
    (hnew : other ∉ inProgress ++ [field]) : Walk rules (inProgress ++ [field] ++ [other]) where
  nodup := List.nodup_append.2 ⟨h.nodup, List.nodup_singleton other, by
    intro a ha b hb hab
    rw [List.mem_singleton] at hb
    exact hnew (hb ▸ hab ▸ ha)⟩
  linked := List.isChain_append.2 ⟨h.linked, List.isChain_singleton other, by
    intro a ha b hb
    rw [List.getLast?_concat, Option.mem_some_iff] at ha
    rw [List.head?_cons, Option.mem_some_iff] at hb
    rwa [← ha, ← hb]⟩

/-- What begins a walk is a walk. -/
theorem initial {rest : List String} (h : Walk rules (inProgress ++ rest)) :
    Walk rules inProgress :=
  ⟨h.nodup.of_append_left, h.linked.left_of_append⟩

/-- All fields in progress but the last one are declared, since each has a rule that leads to the
next one. -/
theorem declared (h : Walk rules inProgress) :
    ∀ x ∈ inProgress.dropLast, x ∈ rules.keys := by
  obtain ⟨-, hlinked⟩ := h
  induction hlinked with
  | nil => simp
  | singleton a => simp
  | cons_cons hdep _ ih =>
    intro x hx
    rw [List.dropLast_cons_cons, List.mem_cons] at hx
    rcases hx with rfl | hx
    · obtain ⟨rule, hmem, -⟩ := hdep
      exact List.mem_map.2 ⟨_, hmem, rfl⟩
    · exact ih x hx

end Walk

/-- Binding a parameter to a record changes nothing about the field that it depends on. -/
theorem Param.dependency?_bind (record : Record) (param : Param) :
    (param.bind record).dependency? = param.dependency? := by
  cases param <;> rfl

/-- Binding parameters to a record leaves the fields that they depend on. -/
theorem Spec.dependencies_bind (record : Record) (spec : Spec) :
    (spec.bind record).filterMap BoundParam.dependency? =
      spec.values.filterMap Param.dependency? := by
  rw [Spec.bind, List.filterMap_map]
  exact List.filterMap_congr fun param _ => Param.dependency?_bind record param

/-- A field that later parameters depend on is one that all of them depend on. -/
theorem mem_dependencies_cons (param : BoundParam) {rest : List BoundParam} {d : String}
    (h : d ∈ rest.filterMap BoundParam.dependency?) :
    d ∈ (param :: rest).filterMap BoundParam.dependency? := by
  rw [List.filterMap_cons]
  split
  · exact h
  · exact List.mem_cons_of_mem _ h

section Calls

variable {σ : Type} {depends : String → Run Record σ Bool} {c : Conduct Record σ}

/-- Assembling a call obeys what settling its dependencies obeys. -/
theorem assembleCall_obeys (params : List BoundParam)
    (hdepends : ∀ d ∈ params.filterMap BoundParam.dependency?, (depends d).Obeys c) :
    (assembleCall depends params).Obeys c := by
  induction params with
  | nil => exact Run.obeys_pure _
  | cons param rest ih =>
    have hrest : (assembleCall depends rest).Obeys c :=
      ih fun d hd => hdepends d (mem_dependencies_cons param hd)
    cases param with
    | literal v => exact hrest.bind fun _ => Run.obeys_pure _
    | predicate hook => exact hrest.bind fun _ => Run.obeys_pure _
    | dependsOn field =>
      refine (hdepends field (by simp [BoundParam.dependency?])).bind fun passed => ?_
      split
      · intro s
        rw [Run.ObeysAt, Run.target_bind]
        exact (hrest.bind fun _ => Run.obeys_pure _) s
      · exact Run.obeys_pure _

/-- A call to which an argument is added cannot be assembled exactly when the rest cannot. -/
theorem assembleCall_map_error {run : Run Record σ (Except String Call)} {f : Call → Call}
    {s t : Store Record σ} {d : String}
    (h : (do let call ← run; return call.map f : Run Record σ (Except String Call)) s =
      .ok (.error d) t) : run s = .ok (.error d) t := by
  obtain ⟨call, u, hcall, hmap⟩ := Run.bind_eq_ok.1 h
  cases call with
  | ok call => simp [Except.map] at hmap
  | error e =>
    simp only [Except.map, Run.pure_eq_ok, Except.error.injEq] at hmap
    obtain ⟨rfl, rfl⟩ := hmap
    exact hcall

/-- A call that cannot be assembled ends right where a dependency was found not to pass. -/
theorem assembleCall_error {params : List BoundParam} {s t : Store Record σ} {d : String}
    (hdepends : ∀ d ∈ params.filterMap BoundParam.dependency?, (depends d).Obeys c)
    (h : assembleCall depends params s = .ok (.error d) t) :
    d ∈ params.filterMap BoundParam.dependency? ∧
      ∃ u, c.keeps s u ∧ depends d u = .ok false t := by
  induction params generalizing s with
  | nil => simp [assembleCall] at h
  | cons param rest ih =>
    have hrest : ∀ d ∈ rest.filterMap BoundParam.dependency?, (depends d).Obeys c :=
      fun d hd => hdepends d (mem_dependencies_cons param hd)
    cases param with
    | literal v =>
      obtain ⟨hmem, hfound⟩ := ih hrest (assembleCall_map_error h)
      exact ⟨mem_dependencies_cons _ hmem, hfound⟩
    | predicate hook =>
      obtain ⟨hmem, hfound⟩ := ih hrest (assembleCall_map_error h)
      exact ⟨mem_dependencies_cons _ hmem, hfound⟩
    | dependsOn field =>
      have hfield : field ∈ (BoundParam.dependsOn field :: rest).filterMap
          BoundParam.dependency? := by simp [BoundParam.dependency?]
      obtain ⟨passed, u, hpassed, hgo⟩ := Run.bind_eq_ok.1 h
      cases passed with
      | false =>
        simp only [Bool.false_eq_true, if_false, Run.pure_eq_ok, Except.error.injEq] at hgo
        obtain ⟨rfl, rfl⟩ := hgo
        exact ⟨hfield, s, c.refl s, hpassed⟩
      | true =>
        simp only [if_true, Run.target_bind] at hgo
        obtain ⟨hmem, v, hkeeps, hfound⟩ := ih hrest (assembleCall_map_error hgo)
        have hpassing := c.trans ((hdepends field hfield s).keeps hpassed) hkeeps
        exact ⟨mem_dependencies_cons _ hmem, v, hpassing, hfound⟩

end Calls

namespace Engine

variable {σ : Type} {engine : Engine σ} {nested : NestedValidation σ} {rules : Fields Rule}

section Steps

variable {depends : String → Run Record σ Bool} {c : Conduct Record σ} {field : String}

/-- One validator obeys what settling its dependencies obeys, provided that abandoning it right
after a dependency has been found not to pass is within bounds too. -/
theorem check_obeys {name : String} (validator : Validator) {spec : Spec}
    (hdepends : ∀ d ∈ spec.values.filterMap Param.dependency?, (depends d).Obeys c)
    (habandon : ∀ d ∈ spec.values.filterMap Param.dependency?, ∀ u t,
      depends d u = .ok false t → c.keeps u t →
        c.keeps u ⟨t.target, engine.observe (.abandoned field name d) t.caller⟩) :
    (engine.check depends field name validator spec).Obeys c := by
  intro s
  have hbound : ∀ d ∈ (spec.bind s.target).filterMap BoundParam.dependency?,
      (depends d).Obeys c := by
    rwa [Spec.dependencies_bind]
  have hcall := assembleCall_obeys (spec.bind s.target) hbound s
  refine Run.obeysAt_target ?_
  split
  · exact Run.obeys_pure _ s
  · unfold Run.ObeysAt
    cases h : assembleCall depends (spec.bind s.target) s with
    | error e t =>
      rw [Run.bind_of_error h]
      exact hcall.breaks h
    | ok call t =>
      rw [Run.bind_of_ok h]
      cases call with
      | ok call =>
        simp only [Run.target_bind]
        split_ifs <;> exact hcall.keeps h
      | error d =>
        obtain ⟨hmem, u, hkeeps, hfalse⟩ := assembleCall_error hbound h
        rw [Spec.dependencies_bind] at hmem
        have hfound : c.keeps u t := (hdepends d hmem u).keeps hfalse
        exact c.trans hkeeps (habandon d hmem u t hfalse hfound)

/-- The validators of a field obey what settling any of their dependencies obeys. -/
theorem checkAll_obeys (found : List (String × Validator × Spec))
    (hdepends : ∀ entry ∈ found, ∀ d ∈ entry.2.2.values.filterMap Param.dependency?,
      (depends d).Obeys c)
    (habandon : ∀ entry ∈ found, ∀ d ∈ entry.2.2.values.filterMap Param.dependency?, ∀ u t,
      depends d u = .ok false t → c.keeps u t →
        c.keeps u ⟨t.target, engine.observe (.abandoned field entry.1 d) t.caller⟩) :
    (engine.checkAll depends field found).Obeys c := by
  induction found with
  | nil => exact Run.obeys_pure _
  | cons entry rest ih =>
    obtain ⟨name, validator, spec⟩ := entry
    have hfirst := check_obeys validator
      (hdepends (name, validator, spec) List.mem_cons_self)
      (habandon (name, validator, spec) List.mem_cons_self)
    have hrest := ih (fun entry h => hdepends entry (List.mem_cons_of_mem _ h))
      (fun entry h => habandon entry (List.mem_cons_of_mem _ h))
    exact hfirst.bind fun _ => hrest.bind fun _ => Run.obeys_pure _

/-- How the verdict of a validator comes about: it is passed over, or its call is assembled and a
dependency fails or the call is made. -/
theorem check_eq_ok {name : String} {validator : Validator} {spec : Spec} {verdict : Verdict}
    {s t : Store Record σ}
    (h : engine.check depends field name validator spec s = .ok verdict t) :
    ((!validator.presence && !engine.settings.strict && (s.target.read field).isBlank) = true ∧
      verdict = .skipped ∧ t = s) ∨
    ((!validator.presence && !engine.settings.strict && (s.target.read field).isBlank) = false ∧
      ∃ call u, assembleCall depends (spec.bind s.target) s = .ok call u ∧ t.target = u.target ∧
        match call with
        | .error d => verdict = .abandoned d
        | .ok call => verdict.message?.isNone =
            (validator.check (u.target.read field) call.arguments ==
              spec.expectedResult u.target call.arguments)) := by
  unfold check at h
  rw [Run.target_bind] at h
  split at h
  · next hskip =>
    obtain ⟨rfl, rfl⟩ := Run.pure_eq_ok.1 h
    exact Or.inl ⟨hskip, rfl, rfl⟩
  · next hmade =>
    obtain ⟨call, u, hcall, h⟩ := Run.bind_eq_ok.1 h
    refine Or.inr ⟨Bool.eq_false_iff.2 hmade, call, u, hcall, ?_⟩
    cases call with
    | error d =>
      obtain ⟨_, w, hnotify, h⟩ := Run.bind_eq_ok.1 h
      obtain ⟨rfl, rfl⟩ := Run.pure_eq_ok.1 h
      cases hnotify
      exact ⟨rfl, rfl⟩
    | ok call =>
      simp only [Run.target_bind] at h
      split at h
      · next hpassed =>
        obtain ⟨rfl, rfl⟩ := Run.pure_eq_ok.1 h
        exact ⟨rfl, hpassed.symm⟩
      · next hfailed =>
        obtain ⟨rfl, rfl⟩ := Run.pure_eq_ok.1 h
        exact ⟨rfl, (Bool.eq_false_iff.2 hfailed).symm⟩

/-- The module pass of a field obeys what each of its configured modules obeys. -/
theorem runModules_obeys {rule : CanonicalForm} (configs : Fields Configuration)
    (hmodule : ∀ entry ∈ configs, ∀ module, engine.modules.get? entry.1 = some module →
      (engine.runModule nested field rule entry.2 module).Obeys c)
    (results : Contributions) :
    (engine.runModules nested field rule configs results).Obeys c := by
  induction configs generalizing results with
  | nil => exact Run.obeys_pure _
  | cons entry rest ih =>
    obtain ⟨name, config⟩ := entry
    have hrest := ih fun entry h => hmodule entry (List.mem_cons_of_mem _ h)
    unfold runModules
    split
    · exact hrest results
    · next module hget =>
      exact (hmodule (name, config) List.mem_cons_self module hget).bind fun _ => hrest _

/-- A validator is found if it is registered. -/
theorem find_eq_ok {validators : KnownValidators} {name : String} {validator : Validator} :
    validators.find name = .ok validator ↔ validators.get? name = some validator := by
  rw [KnownValidators.find]
  cases validators.get? name with
  | none => simp
  | some other => simp

/-- Looking up validators adds to every spec the validator of its name. -/
theorem mem_of_findAll {specs : Fields Spec} {found : List (String × Validator × Spec)}
    (h : engine.findAll specs = .ok found) {entry : String × Validator × Spec}
    (hmem : entry ∈ found) : (entry.1, entry.2.2) ∈ specs := by
  induction specs generalizing found with
  | nil =>
    cases h
    cases hmem
  | cons first rest ih =>
    obtain ⟨name, spec⟩ := first
    rw [findAll, except_bind_eq_ok] at h
    obtain ⟨validator, -, h⟩ := h
    obtain ⟨others, hrest, h⟩ := except_bind_eq_ok.1 h
    cases h
    rcases List.mem_cons.1 hmem with rfl | hmem
    · exact List.mem_cons_self
    · exact List.mem_cons_of_mem _ (ih hrest hmem)

/-- Looking up validators keeps the names of the specs and their order. -/
theorem keys_of_findAll {specs : Fields Spec} {found : List (String × Validator × Spec)}
    (h : engine.findAll specs = .ok found) : Fields.keys found = specs.keys := by
  induction specs generalizing found with
  | nil =>
    cases h
    rfl
  | cons first rest ih =>
    obtain ⟨name, spec⟩ := first
    rw [findAll, except_bind_eq_ok] at h
    obtain ⟨validator, -, h⟩ := h
    obtain ⟨others, hrest, h⟩ := except_bind_eq_ok.1 h
    cases h
    exact congrArg (name :: ·) (ih hrest)

/-- Looking up validators gives each of them under its registered name. -/
theorem get?_of_findAll {specs : Fields Spec} {found : List (String × Validator × Spec)}
    (h : engine.findAll specs = .ok found) {entry : String × Validator × Spec}
    (hmem : entry ∈ found) : engine.validators.get? entry.1 = some entry.2.1 := by
  induction specs generalizing found with
  | nil =>
    cases h
    cases hmem
  | cons first rest ih =>
    obtain ⟨name, spec⟩ := first
    rw [findAll, except_bind_eq_ok] at h
    obtain ⟨validator, hfind, h⟩ := h
    obtain ⟨others, hrest, h⟩ := except_bind_eq_ok.1 h
    cases h
    rcases List.mem_cons.1 hmem with rfl | hmem
    · exact find_eq_ok.1 hfind
    · exact ih hrest hmem

/-- Looking up validators fails at a name that is not registered. -/
theorem findAll_error {specs : Fields Spec} {e : SetupError}
    (h : engine.findAll specs = .error e) :
    ∃ name ∈ specs.keys, engine.validators.get? name = none ∧ e = .unknownValidator name := by
  induction specs with
  | nil => cases h
  | cons first rest ih =>
    obtain ⟨name, spec⟩ := first
    rw [findAll, KnownValidators.find] at h
    cases hget : engine.validators.get? name with
    | none =>
      rw [hget] at h
      cases h
      exact ⟨name, List.mem_cons_self, hget, rfl⟩
    | some validator =>
      rw [hget] at h
      cases hrest : engine.findAll rest with
      | ok others =>
        rw [hrest] at h
        cases h
      | error e' =>
        rw [hrest] at h
        cases h
        obtain ⟨missing, hmem, hfound⟩ := ih hrest
        exact ⟨missing, List.mem_cons_of_mem _ hmem, hfound⟩

/-- What the looked-up validators depend on, the rule depends on. -/
theorem mem_dependencies_of_findAll {rule : CanonicalForm}
    {found : List (String × Validator × Spec)} (h : engine.findAll rule.validators = .ok found)
    {entry : String × Validator × Spec} (hmem : entry ∈ found) {d : String}
    (hd : d ∈ entry.2.2.values.filterMap Param.dependency?) : d ∈ rule.dependencies :=
  List.mem_flatMap.2 ⟨_, mem_of_findAll h hmem, hd⟩

/-- Judging a field obeys a conduct if an unknown validator, its module pass and, after that pass,
its validators do. -/
theorem judge_obeys {c : Conduct Record σ} {rule : Rule} (force : Bool)
    (hunknown : ∀ e, engine.findAll rule.canonical.validators = .error e → ∀ s, c.breaks s e s)
    (hmodules :
      (engine.runModules nested field rule.canonical rule.canonical.modules .empty).Obeys c)
    (hchecks : ∀ found, engine.findAll rule.canonical.validators = .ok found →
      (engine.checkAll depends field found).Obeys c) :
    (engine.judge nested depends field rule force).Obeys c := by
  intro s
  refine Run.ObeysAt.bind (Run.obeysAt_ofExcept fun e he => hunknown e he s) ?_
  intro found t hfind
  obtain ⟨hfound, rfl⟩ := Run.ofExcept_eq_ok.1 hfind
  refine (hmodules s).bind fun results t _ => ?_
  refine (hchecks found hfound t).bind fun verdicts u _ => ?_
  dsimp only
  split <;> exact Run.obeys_pure _ u

/-- Judging a field ends in a result exactly when its validators are known and its modules and its
validators all run to the end; the result is what they have found. -/
theorem judge_eq_ok {rule : Rule} {force : Bool} {s t : Store Record σ} {result : FieldResult} :
    engine.judge nested depends field rule force s = .ok result t ↔
      ∃ found results u verdicts, engine.findAll rule.canonical.validators = .ok found ∧
        engine.runModules nested field rule.canonical rule.canonical.modules .empty s =
          .ok results u ∧
        engine.checkAll depends field found u = .ok verdicts t ∧
        result = (if !force && ((failures verdicts).merge results.errors).isEmpty then .valid
          else .checked ⟨(failures verdicts).merge results.errors, results.aux⟩) := by
  unfold judge
  constructor
  · intro h
    obtain ⟨found, s', hfind, h⟩ := Run.bind_eq_ok.1 h
    obtain ⟨hfound, rfl⟩ := Run.ofExcept_eq_ok.1 hfind
    obtain ⟨results, u, hmodules, h⟩ := Run.bind_eq_ok.1 h
    obtain ⟨verdicts, t', hchecks, h⟩ := Run.bind_eq_ok.1 h
    refine ⟨found, results, u, verdicts, hfound, hmodules, ?_⟩
    split at h
    · next hclean =>
      obtain ⟨rfl, rfl⟩ := Run.pure_eq_ok.1 h
      exact ⟨hchecks, (if_pos hclean).symm⟩
    · next hclean =>
      obtain ⟨rfl, rfl⟩ := Run.pure_eq_ok.1 h
      exact ⟨hchecks, (if_neg hclean).symm⟩
  · rintro ⟨found, results, u, verdicts, hfound, hmodules, hchecks, rfl⟩
    refine Run.bind_eq_ok.2 ⟨found, s, Run.ofExcept_eq_ok.2 ⟨hfound, rfl⟩, ?_⟩
    refine Run.bind_eq_ok.2 ⟨results, u, hmodules, ?_⟩
    refine Run.bind_eq_ok.2 ⟨verdicts, t, hchecks, ?_⟩
    split <;> rfl

/-- A run between two steps ends in a result exactly when the run itself does. -/
theorem during_eq_ok {τ α : Type} {first last : Event} {run : Run τ σ α} {s t : Store τ σ} {a : α} :
    engine.during first last run s = .ok a t ↔
      ∃ u, run ⟨s.target, engine.observe first s.caller⟩ = .ok a u ∧
        t = ⟨u.target, engine.observe last u.caller⟩ := by
  have hnotify : (engine.notify first : Run τ σ Unit) s =
      .ok () ⟨s.target, engine.observe first s.caller⟩ := rfl
  unfold during
  rw [Run.bind_of_ok hnotify]
  unfold Run.lastly
  cases run ⟨s.target, engine.observe first s.caller⟩ with
  | ok b u =>
    simp only [EStateM.Result.ok.injEq]
    constructor
    · rintro ⟨rfl, rfl⟩
      exact ⟨u, ⟨rfl, rfl⟩, rfl⟩
    · rintro ⟨_, ⟨rfl, rfl⟩, rfl⟩
      exact ⟨rfl, rfl⟩
  | error e u => simp

/-- A run between two events ends as it does after the first, and the last is added to its journal.
-/
theorem during_of_ok {τ α : Type} {first last : Event} {run : Run τ σ α} {s t : Store τ σ} {a : α}
    (h : run ⟨s.target, engine.observe first s.caller⟩ = .ok a t) :
    engine.during first last run s = .ok a ⟨t.target, engine.observe last t.caller⟩ :=
  during_eq_ok.2 ⟨t, h, rfl⟩

/-- The observer is told of the last step also when the run ends in an error. -/
theorem during_of_error {τ α : Type} {first last : Event} {run : Run τ σ α} {s t : Store τ σ}
    {e : SetupError} (h : run ⟨s.target, engine.observe first s.caller⟩ = .error e t) :
    engine.during first last run s = .error e ⟨t.target, engine.observe last t.caller⟩ := by
  have hnotify : (engine.notify first : Run τ σ Unit) s =
      .ok () ⟨s.target, engine.observe first s.caller⟩ := rfl
  unfold during
  rw [Run.bind_of_ok hnotify]
  unfold Run.lastly
  rw [h]

/-- The observer does not touch the target. -/
theorem during_changing {τ α : Type} {R : τ → τ → Prop} {hrefl : ∀ t, R t t}
    {htrans : ∀ t u v, R t u → R u v → R t v} {first last : Event} {run : Run τ σ α}
    (h : run.Obeys (.changing R hrefl htrans)) :
    (engine.during first last run).Obeys (.changing R hrefl htrans) := by
  intro s
  have hinside := h ⟨s.target, engine.observe first s.caller⟩
  unfold Run.ObeysAt
  cases hrun : run ⟨s.target, engine.observe first s.caller⟩ with
  | ok a t =>
    have hkeeps : R s.target t.target := hinside.keeps hrun
    rw [during_of_ok hrun]
    exact hkeeps
  | error e t =>
    have hbreaks : R s.target t.target := hinside.breaks hrun
    rw [during_of_error hrun]
    exact hbreaks

/-- A module writes into its own field, if at all, also when it fails. -/
theorem runModule_changing {R : Record → Record → Prop} {hrefl : ∀ r, R r r}
    {htrans : ∀ r r' r'', R r r' → R r' r'' → R r r''}
    (hput : ∀ (r : Record) (v : Value), R r (r.put field v)) (form : CanonicalForm)
    (config : Configuration) (module : Module σ) :
    (engine.runModule nested field form config module).Obeys (.changing R hrefl htrans) := by
  intro s
  unfold Run.ObeysAt
  rw [runModule, Run.target_bind, Run.focus]
  cases module config ⟨field, form, engine.settings.strict, s.target, engine.announced nested⟩
      ⟨none, s.caller⟩ with
  | ok out t =>
    rcases t with ⟨_ | v, c⟩
    · exact hrefl s.target
    · exact hput s.target v
  | error e t =>
    rcases t with ⟨_ | v, c⟩
    · exact hrefl s.target
    · exact hput s.target v

/-- An announced nested run ends in a result exactly when the nested run does. -/
theorem announced_eq_ok {inner : Rules} {force : Bool} {s t : Store Value σ} {outcome : Outcome} :
    engine.announced nested inner force s = .ok outcome t ↔
      ∃ u, nested inner force ⟨s.target, engine.observe (.opened inner s.target) s.caller⟩ =
          .ok outcome u ∧ t = ⟨u.target, engine.observe .closed u.caller⟩ :=
  during_eq_ok

/-- The evaluation of fields ends in a result when the first one is evaluated to the end and then
all the others; the first one is reported in front, if at all. -/
theorem judgeAll_cons_eq_ok {force : Bool} {rule : Rule} {rest : List (String × Rule)}
    {s t : Store Record σ} {reports : Fields Report}
    (h : engine.judgeAll nested rules force ((field, rule) :: rest) s = .ok reports t) :
    ∃ result u others, engine.judgeWithin nested rules [] field rule force s = .ok result u ∧
      engine.judgeAll nested rules force rest u = .ok others t ∧
      reports = (match result with
        | .valid => others
        | .checked report => (field, report) :: others) := by
  obtain ⟨result, u, hfirst, h⟩ := Run.bind_eq_ok.1 h
  obtain ⟨others, w, hothers, h⟩ := Run.bind_eq_ok.1 h
  refine ⟨result, u, others, hfirst, ?_⟩
  cases result with
  | valid =>
    obtain ⟨rfl, rfl⟩ := Run.pure_eq_ok.1 h
    exact ⟨hothers, rfl⟩
  | checked report =>
    obtain ⟨rfl, rfl⟩ := Run.pure_eq_ok.1 h
    exact ⟨hothers, rfl⟩

/-- The evaluation of fields can be cut in two anywhere. -/
theorem judgeAll_append_eq_ok {force : Bool} {first rest : List (String × Rule)}
    {s t : Store Record σ} {reports : Fields Report}
    (h : engine.judgeAll nested rules force (first ++ rest) s = .ok reports t) :
    ∃ front u back, engine.judgeAll nested rules force first s = .ok front u ∧
      engine.judgeAll nested rules force rest u = .ok back t ∧ reports = front ++ back := by
  induction first generalizing s reports with
  | nil => exact ⟨[], s, reports, rfl, h, rfl⟩
  | cons turn first ih =>
    obtain ⟨field, rule⟩ := turn
    obtain ⟨result, w, others, hturn, hothers, rfl⟩ := judgeAll_cons_eq_ok h
    obtain ⟨front, u, back, hfront, hback, rfl⟩ := ih hothers
    cases result with
    | valid =>
      refine ⟨front, u, back, ?_, hback, rfl⟩
      exact Run.bind_eq_ok.2 ⟨_, w, hturn, Run.bind_eq_ok.2 ⟨_, u, hfront, rfl⟩⟩
    | checked report =>
      refine ⟨(field, report) :: front, u, back, ?_, hback, rfl⟩
      exact Run.bind_eq_ok.2 ⟨_, w, hturn, Run.bind_eq_ok.2 ⟨_, u, hfront, rfl⟩⟩

/-- Fields are reported on in the order of their turns. -/
theorem judgeAll_sublist {force : Bool} {turns : List (String × Rule)} {s t : Store Record σ}
    {reports : Fields Report} (h : engine.judgeAll nested rules force turns s = .ok reports t) :
    reports.keys.Sublist (Fields.keys turns) := by
  induction turns generalizing s reports with
  | nil =>
    obtain ⟨rfl, -⟩ := Run.pure_eq_ok.1 h
    exact List.Sublist.refl _
  | cons turn rest ih =>
    obtain ⟨field, rule⟩ := turn
    obtain ⟨result, u, others, -, hothers, rfl⟩ := judgeAll_cons_eq_ok h
    cases result with
    | valid => exact (ih hothers).cons field
    | checked report => exact (ih hothers).cons_cons field

/-- Only fields that are evaluated are reported. -/
theorem judgeAll_keys {force : Bool} {turns : List (String × Rule)} {s t : Store Record σ}
    {reports : Fields Report} (h : engine.judgeAll nested rules force turns s = .ok reports t) :
    ∀ name ∈ reports.keys, name ∈ Fields.keys turns :=
  fun _ hname => (judgeAll_sublist h).subset hname

/-- Validation by field rules ends in a result when there is something to validate and all fields
are evaluated to the end; the outcome is what they report. -/
theorem validateFields_eq_ok {force : Bool} {s t : Store Value σ} {outcome : Outcome}
    (h : engine.validateFields nested rules force s = .ok outcome t) :
    s.target.isTruthy = true ∧ ∃ reports u,
      engine.judgeAll nested rules force rules ⟨recordOf s.target, s.caller⟩ = .ok reports u ∧
      t = ⟨withRecord s.target u.target, u.caller⟩ ∧
      outcome = (if !force && reports.isEmpty then .valid else .fields reports) := by
  unfold validateFields at h
  rw [Run.target_bind] at h
  split at h
  · cases h
  · next htruthy =>
    obtain ⟨reports, w, hfocus, h⟩ := Run.bind_eq_ok.1 h
    obtain ⟨u, hall, rfl⟩ := Run.focus_eq_ok.1 hfocus
    refine ⟨by simpa using htruthy, reports, u, hall, ?_⟩
    split at h
    · next hclean =>
      obtain ⟨rfl, rfl⟩ := Run.pure_eq_ok.1 h
      exact ⟨rfl, (if_pos hclean).symm⟩
    · next hclean =>
      obtain ⟨rfl, rfl⟩ := Run.pure_eq_ok.1 h
      exact ⟨rfl, (if_neg hclean).symm⟩

/-- Validation of a value as a whole ends in a result when the field that holds it is evaluated to
the end; the outcome is the errors of its report. -/
theorem validateWhole_eq_ok {descriptor : Descriptor} {force : Bool} {s t : Store Value σ}
    {outcome : Outcome} (h : engine.validateWhole nested descriptor force s = .ok outcome t) :
    ∃ result u,
      engine.judgeWithin nested [(wholeField, .descriptor descriptor)] [] wholeField
        (.descriptor descriptor) force ⟨[(wholeField, s.target)], s.caller⟩ = .ok result u ∧
      t = ⟨Fields.read u.target wholeField, u.caller⟩ ∧
      outcome = (match result with
        | .valid => .valid
        | .checked report => .errors report.errors) := by
  unfold validateWhole at h
  obtain ⟨result, w, hfocus, h⟩ := Run.bind_eq_ok.1 h
  obtain ⟨u, hjudge, rfl⟩ := Run.focus_eq_ok.1 hfocus
  refine ⟨result, u, hjudge, ?_⟩
  cases result with
  | valid =>
    obtain ⟨rfl, rfl⟩ := Run.pure_eq_ok.1 h
    exact ⟨rfl, rfl⟩
  | checked report =>
    obtain ⟨rfl, rfl⟩ := Run.pure_eq_ok.1 h
    exact ⟨rfl, rfl⟩

end Steps

section Settling

variable {inProgress : List String} {field : String}

/-- A dependency that is in progress closes a cycle. -/
theorem dependencyPasses_of_mem (h : field ∈ inProgress) :
    engine.dependencyPasses nested rules inProgress field =
      throw (.cyclicDependency (inProgress ++ [field])) := by
  rw [dependencyPasses, dif_pos h]

/-- A dependency without a rule passes at once. -/
theorem dependencyPasses_undeclared (hnew : field ∉ inProgress)
    (hget : rules.get? field = none) :
    engine.dependencyPasses nested rules inProgress field =
      engine.during (.entered rules.keys (inProgress ++ [field])) (.returned inProgress)
        (pure true) := by
  rw [dependencyPasses, dif_neg hnew]
  split
  · rfl
  · next rule hrule => rw [hget] at hrule; cases hrule

/-- A dependency with a rule is evaluated by it, and passes if nothing is reported. -/
theorem dependencyPasses_declared {rule : Rule} (hnew : field ∉ inProgress)
    (hget : rules.get? field = some rule) :
    engine.dependencyPasses nested rules inProgress field =
      engine.during (.entered rules.keys (inProgress ++ [field])) (.returned inProgress) (do
        let outcome ← engine.judge nested
          (engine.dependencyPasses nested rules (inProgress ++ [field])) field rule false
        return outcome.passes) := by
  rw [dependencyPasses, dif_neg hnew]
  split
  · next hrule => rw [hget] at hrule; cases hrule
  · next rule' hrule =>
    rw [hget, Option.some.injEq] at hrule
    subst hrule
    rfl

end Settling

/-- The laws that the single steps of an evaluation owe: `checking` is the conduct of whatever
happens between the steps of the last field in progress once its modules have run, `judging` the
conduct of judging one more field, its modules included. -/
structure Governed (engine : Engine σ) (nested : NestedValidation σ) (rules : Fields Rule)
    (checking : List String → Conduct Record σ)
    (judging : List String → String → Conduct Record σ) : Prop where
  keeps_judging : ∀ {inProgress field s t},
    (checking (inProgress ++ [field])).keeps s t → (judging inProgress field).keeps s t
  breaks_judging : ∀ {inProgress field s e t},
    (checking (inProgress ++ [field])).breaks s e t → (judging inProgress field).breaks s e t
  enters : ∀ {α : Type} {inProgress field} {run : Run Record σ α},
    Walk rules (inProgress ++ [field]) → run.Obeys (judging inProgress field) →
      (engine.during (.entered rules.keys (inProgress ++ [field])) (.returned inProgress)
        run).Obeys (checking inProgress)
  cycles : ∀ {inProgress field d}, Walk rules (inProgress ++ [field]) →
    DependsOn rules field d → d ∈ inProgress ++ [field] → ∀ s,
      (checking (inProgress ++ [field])).breaks s
        (.cyclicDependency (inProgress ++ [field] ++ [d])) s
  misses : ∀ {inProgress field rule e}, Walk rules (inProgress ++ [field]) →
    (field, rule) ∈ rules → engine.findAll rule.canonical.validators = .error e → ∀ s,
      (judging inProgress field).breaks s e s
  prepares : ∀ {inProgress field rule}, Walk rules (inProgress ++ [field]) →
    (field, rule) ∈ rules →
      (engine.runModules nested field rule.canonical rule.canonical.modules .empty).Obeys
        (judging inProgress field)
  abandons : ∀ {inProgress field d} (name : String), Walk rules (inProgress ++ [field]) →
    DependsOn rules field d → ∀ {s t},
      engine.dependencyPasses nested rules (inProgress ++ [field]) d s = .ok false t →
      (checking (inProgress ++ [field])).keeps s t →
        (checking (inProgress ++ [field])).keeps s
          ⟨t.target, engine.observe (.abandoned field name d) t.caller⟩

namespace Governed

variable {checking : List String → Conduct Record σ}
  {judging : List String → String → Conduct Record σ}
  {inProgress : List String} {field : String} {rule : Rule}

/-- Settling a dependency obeys the laws once judging any further declared field does. -/
theorem settle_obeys (h : Governed engine nested rules checking judging) {d : String}
    (hwalk : Walk rules (inProgress ++ [field])) (hdep : DependsOn rules field d)
    (hjudge : ∀ rule, (d, rule) ∈ rules → d ∉ inProgress ++ [field] →
      (engine.judge nested
        (engine.dependencyPasses nested rules (inProgress ++ [field] ++ [d])) d rule
          false).Obeys (judging (inProgress ++ [field]) d)) :
    (engine.dependencyPasses nested rules (inProgress ++ [field]) d).Obeys
      (checking (inProgress ++ [field])) := by
  by_cases hnew : d ∈ inProgress ++ [field]
  · rw [dependencyPasses_of_mem hnew]
    exact fun s => Run.obeysAt_throw (h.cycles hwalk hdep hnew s)
  · have hlonger := hwalk.extend hdep hnew
    cases hget : rules.get? d with
    | none =>
      rw [dependencyPasses_undeclared hnew hget]
      exact h.enters hlonger (Run.obeys_pure _)
    | some rule =>
      rw [dependencyPasses_declared hnew hget]
      have hobeys := hjudge rule (Fields.mem_of_get? hget) hnew
      exact h.enters hlonger (hobeys.bind fun _ => Run.obeys_pure _)

/-- Judging a declared field obeys the laws. The induction is on the declared fields that are not
in progress: each further field that is judged takes one of them away. -/
theorem judge_obeys (h : Governed engine nested rules checking judging)
    (hwalk : Walk rules (inProgress ++ [field])) (hrule : (field, rule) ∈ rules) (force : Bool) :
    (engine.judge nested (engine.dependencyPasses nested rules (inProgress ++ [field]))
      field rule force).Obeys (judging inProgress field) := by
  induction hidle : (idle rules (inProgress ++ [field])).length using Nat.strong_induction_on
    generalizing inProgress field rule force with
  | _ n ih =>
    subst hidle
    have hdepends : ∀ d ∈ rule.canonical.dependencies,
        (engine.dependencyPasses nested rules (inProgress ++ [field]) d).Obeys
          (checking (inProgress ++ [field])) := by
      intro d hd
      have hdep : DependsOn rules field d := ⟨rule, hrule, hd⟩
      refine h.settle_obeys hwalk hdep fun next hnext hnew => ?_
      have hdeclared : d ∈ rules.keys := List.mem_map.2 ⟨_, hnext, rfl⟩
      exact ih _ (length_idle_lt hdeclared hnew) (hwalk.extend hdep hnew) hnext false rfl
    refine Engine.judge_obeys force (fun e he => h.misses hwalk hrule he)
      (h.prepares hwalk hrule) fun found hfound => ?_
    have hchecks : (engine.checkAll
        (engine.dependencyPasses nested rules (inProgress ++ [field])) field found).Obeys
          (checking (inProgress ++ [field])) := by
      refine checkAll_obeys found (fun entry hentry d hd => ?_) fun entry hentry d hd s t => ?_
      · exact hdepends d (mem_dependencies_of_findAll hfound hentry hd)
      · exact h.abandons entry.1 hwalk
          ⟨rule, hrule, mem_dependencies_of_findAll hfound hentry hd⟩
    exact hchecks.mono h.keeps_judging h.breaks_judging

/-- Settling a dependency of the last field in progress obeys the laws. -/
theorem dependencyPasses_obeys (h : Governed engine nested rules checking judging) {d : String}
    (hwalk : Walk rules (inProgress ++ [field])) (hdep : DependsOn rules field d) :
    (engine.dependencyPasses nested rules (inProgress ++ [field]) d).Obeys
      (checking (inProgress ++ [field])) :=
  h.settle_obeys hwalk hdep fun _ hnext hnew =>
    h.judge_obeys (hwalk.extend hdep hnew) hnext false

/-- The validators of a declared field obey the laws. -/
theorem checkAll_obeys (h : Governed engine nested rules checking judging)
    (hwalk : Walk rules (inProgress ++ [field])) (hrule : (field, rule) ∈ rules)
    {found : List (String × Validator × Spec)}
    (hfound : engine.findAll rule.canonical.validators = .ok found) :
    (engine.checkAll (engine.dependencyPasses nested rules (inProgress ++ [field])) field
      found).Obeys (checking (inProgress ++ [field])) := by
  have hdep : ∀ entry ∈ found, ∀ d ∈ entry.2.2.values.filterMap Param.dependency?,
      DependsOn rules field d :=
    fun entry hentry d hd => ⟨rule, hrule, mem_dependencies_of_findAll hfound hentry hd⟩
  refine Engine.checkAll_obeys found (fun entry hentry d hd => ?_) fun entry hentry d hd s t => ?_
  · exact h.dependencyPasses_obeys hwalk (hdep entry hentry d hd)
  · exact h.abandons entry.1 hwalk (hdep entry hentry d hd)

/-- Evaluating a declared field with nothing in progress obeys the laws. -/
theorem judgeWithin_obeys (h : Governed engine nested rules checking judging)
    (hrule : (field, rule) ∈ rules) (force : Bool) :
    (engine.judgeWithin nested rules [] field rule force).Obeys (checking []) := by
  have hwalk : Walk rules ([] ++ [field]) := Walk.single field
  exact h.enters hwalk (h.judge_obeys hwalk hrule force)

/-- Evaluating declared fields one after the other obeys the laws. -/
theorem judgeAll_obeys (h : Governed engine nested rules checking judging)
    (force : Bool) (turns : List (String × Rule)) (hturns : ∀ entry ∈ turns, entry ∈ rules) :
    (engine.judgeAll nested rules force turns).Obeys (checking []) := by
  induction turns with
  | nil => exact Run.obeys_pure _
  | cons entry rest ih =>
    obtain ⟨field, rule⟩ := entry
    have hfirst := h.judgeWithin_obeys (hturns (field, rule) List.mem_cons_self) force
    have hrest := ih fun entry hentry => hturns entry (List.mem_cons_of_mem _ hentry)
    refine hfirst.bind fun outcome => hrest.bind fun others => ?_
    cases outcome with
    | valid => exact Run.obeys_pure _
    | checked report => exact Run.obeys_pure _

end Governed

end Engine

end Vetting
