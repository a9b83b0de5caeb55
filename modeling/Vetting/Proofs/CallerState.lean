import Vetting.Proofs.NestedRules

/-!
# What a run does to the caller's state

The caller's state passes through a run untouched but for what the observer makes of the steps that
it is told of. A `Manner` is a conduct that looks at the caller's state alone, so that it is one
conduct for runs on records, on values and on what a module writes. `Accounted` lists what the steps
of an evaluation with the built-in modules owe to such manners, one for each list of fields in
progress; whatever keeps to these laws keeps to them over the validation of a whole value
(`Accounted.validateBy_obeysAt`).
-/

set_option autoImplicit false

namespace Vetting

/-- What a run may do to the caller's state: `keeps` when it ends in a result, `breaks` when it ends
in an error. -/
structure Manner (σ : Type) where
  keeps : σ → σ → Prop
  breaks : σ → SetupError → σ → Prop
  refl : ∀ c, keeps c c
  trans : ∀ {c d e}, keeps c d → keeps d e → keeps c e
  breaks_of_keeps : ∀ {c d e f}, keeps c d → breaks d e f → breaks c e f

/-- The conduct of a manner, for runs on any kind of target. -/
def Manner.conduct {σ : Type} (m : Manner σ) (τ : Type) : Conduct τ σ where
  keeps s t := m.keeps s.caller t.caller
  breaks s e t := m.breaks s.caller e t.caller
  refl s := m.refl s.caller
  trans hst htu := m.trans hst htu
  breaks_of_keeps hst htu := m.breaks_of_keeps hst htu

section Steps

variable {σ τ υ α : Type} {m : Manner σ}

/-- A run on a part of the target treats the caller's state as it does on that part alone. -/
theorem focus_obeysAt {view : τ → υ} {update : τ → υ → τ} {run : Run υ σ α} {s : Store τ σ}
    (h : run.ObeysAt (m.conduct υ) ⟨view s.target, s.caller⟩) :
    (Run.focus view update run).ObeysAt (m.conduct τ) s := by
  unfold Run.ObeysAt Run.focus at *
  cases hrun : run ⟨view s.target, s.caller⟩ with
  | ok a t =>
    rw [hrun] at h
    exact h
  | error e t =>
    rw [hrun] at h
    exact h

/-- A run on another target beside this one treats the caller's state as it does there. -/
theorem beside_obeysAt {other : υ} {run : Run υ σ α} {s : Store τ σ}
    (h : run.ObeysAt (m.conduct υ) ⟨other, s.caller⟩) :
    (Run.beside other run).ObeysAt (m.conduct τ) s := by
  unfold Run.ObeysAt Run.beside at *
  cases hrun : run ⟨other, s.caller⟩ with
  | ok a t =>
    rw [hrun] at h
    exact h
  | error e t =>
    rw [hrun] at h
    exact h

/-- A run between two steps keeps to a manner if, between what the first step and the last step make
of the caller's state, it keeps to another one. -/
theorem during_obeysAt {engine : Engine σ} {first last : Event} {m' : Manner σ}
    {run : Run τ σ α} {s : Store τ σ}
    (hkeeps : ∀ {d}, m'.keeps (engine.observe first s.caller) d →
      m.keeps s.caller (engine.observe last d))
    (hbreaks : ∀ {e d}, m'.breaks (engine.observe first s.caller) e d →
      m.breaks s.caller e (engine.observe last d))
    (h : run.ObeysAt (m'.conduct τ) ⟨s.target, engine.observe first s.caller⟩) :
    (engine.during first last run).ObeysAt (m.conduct τ) s := by
  have hnotify : (engine.notify first : Run τ σ Unit) s =
      .ok () ⟨s.target, engine.observe first s.caller⟩ := rfl
  unfold Run.ObeysAt Engine.during
  rw [Run.bind_of_ok hnotify]
  unfold Run.lastly
  unfold Run.ObeysAt at h
  cases hrun : run ⟨s.target, engine.observe first s.caller⟩ with
  | ok a t =>
    rw [hrun] at h
    exact hkeeps h
  | error e t =>
    rw [hrun] at h
    exact hbreaks h

end Steps

namespace Module

variable {σ : Type} {m : Manner σ}

/-- The module for nested records keeps to a manner if its one nested run does, which is on a value
that the module does not pass over, and if rules that cannot be read are within bounds. -/
theorem objectValidator_obeys {config : Configuration} {scope : Scope σ}
    (hrefuse : ∀ e, nestedRules scope.field config = .error e → ∀ c, m.breaks c e c)
    (hnested : ∀ inner, nestedRules scope.field config = .ok inner →
      (!scope.strict && scope.value.isBlank) = false → ∀ c,
        (scope.validate inner false).ObeysAt (m.conduct Value) ⟨scope.value, c⟩) :
    (objectValidator config scope).Obeys (m.conduct (Option Value)) := by
  intro s
  unfold objectValidator
  split
  · exact Run.obeys_pure _ s
  · next hpresent =>
    refine Run.ObeysAt.bind (Run.obeysAt_ofExcept fun e he => hrefuse e he s.caller) ?_
    intro inner t hinner
    obtain ⟨hread, rfl⟩ := Run.ofExcept_eq_ok.1 hinner
    have hrun := hnested inner hread (Bool.eq_false_iff.2 hpresent) s.caller
    refine Run.ObeysAt.bind (beside_obeysAt hrun) ?_
    rintro ⟨outcome, v⟩ u -
    have hwrite : (write v : Run (Option Value) σ Unit).ObeysAt (m.conduct (Option Value)) u :=
      m.refl u.caller
    refine hwrite.bind fun _ w _ => ?_
    cases outcome <;> exact Run.obeys_pure _ w

/-- A built-in module keeps to a manner if the nested run it may make does, and if its errors of
configuration are within bounds. -/
theorem builtin_obeys {name : String} {module : Module σ}
    (hmem : (name, module) ∈ (builtins : List (String × Module σ))) {config : Configuration}
    {scope : Scope σ}
    (hdefault : name = "defaultValue" → ∀ rules, config = .rules rules →
      ∀ c, m.breaks c (.invalidRule scope.field .defaultFromRules) c)
    (hrefuse : name = "objectValidator" → ∀ e, nestedRules scope.field config = .error e →
      ∀ c, m.breaks c e c)
    (hnested : name = "objectValidator" → ∀ inner, nestedRules scope.field config = .ok inner →
      (!scope.strict && scope.value.isBlank) = false → ∀ c,
        (scope.validate inner false).ObeysAt (m.conduct Value) ⟨scope.value, c⟩) :
    (module config scope).Obeys (m.conduct (Option Value)) := by
  by_cases hname : name = "objectValidator"
  · subst hname
    have hmodule : module = objectValidator := by
      simpa [builtins] using hmem
    rw [hmodule]
    exact objectValidator_obeys (hrefuse rfl) (hnested rfl)
  · intro s
    unfold Run.ObeysAt
    rcases builtin_ends hmem hname config scope s with
      ⟨out, written, hrun, -⟩ | ⟨hdef, ⟨rules, hrules⟩, hrun⟩
    · rw [hrun]
      exact m.refl s.caller
    · rw [hrun]
      exact hdefault hdef rules hrules s.caller

end Module

namespace Engine

variable {σ : Type}

/-- The modules of a field keep to a manner if the nested runs that they may make do, and if their
errors of configuration are within bounds. -/
theorem runModules_obeys_manner {engine : Engine σ} {nested : NestedValidation σ}
    (hmodules : engine.modules = KnownModules.builtin) {m : Manner σ} {field : String}
    {rule : CanonicalForm} {configs : Fields Configuration}
    (hdefault : ∀ inner, ("defaultValue", Configuration.rules inner) ∈ configs → ∀ c,
      m.breaks c (.invalidRule field .defaultFromRules) c)
    (hrefuse : ∀ config, ("objectValidator", config) ∈ configs → ∀ e,
      Module.nestedRules field config = .error e → ∀ c, m.breaks c e c)
    (hnested : ∀ config, ("objectValidator", config) ∈ configs → ∀ inner,
      Module.nestedRules field config = .ok inner → ∀ s : Store Value σ,
        (!engine.settings.strict && s.target.isBlank) = false →
          (engine.announced nested inner false).ObeysAt (m.conduct Value) s)
    (results : Contributions) :
    (engine.runModules nested field rule configs results).Obeys (m.conduct Record) := by
  refine Engine.runModules_obeys _ (fun entry hentry module hget s => ?_) results
  obtain ⟨name, config⟩ := entry
  rw [hmodules] at hget
  unfold runModule
  refine Run.obeysAt_target (focus_obeysAt ?_)
  refine Module.builtin_obeys (KnownModules.mem_of_builtin_get? hget) ?_ ?_ ?_ _
  · rintro rfl inner rfl
    exact hdefault inner hentry
  · rintro rfl e he
    exact hrefuse config hentry e he
  · rintro rfl inner hinner hpresent c
    exact hnested config hentry inner hinner _ hpresent

/-- What the steps of an evaluation with the built-in modules owe to the caller's state, whose
manner may depend on the fields in progress. -/
structure Accounted (engine : Engine σ) (nested : NestedValidation σ) (rules : Fields Rule)
    (manner : List String → Manner σ) : Prop where
  modules : engine.modules = KnownModules.builtin
  returns : ∀ {inProgress field}, Walk rules (inProgress ++ [field]) → ∀ {c d},
    (manner (inProgress ++ [field])).keeps
        (engine.observe (.entered rules.keys (inProgress ++ [field])) c) d →
      (manner inProgress).keeps c (engine.observe (.returned inProgress) d)
  unwinds : ∀ {inProgress field}, Walk rules (inProgress ++ [field]) → ∀ {c e d},
    (manner (inProgress ++ [field])).breaks
        (engine.observe (.entered rules.keys (inProgress ++ [field])) c) e d →
      (manner inProgress).breaks c e (engine.observe (.returned inProgress) d)
  cycles : ∀ {inProgress field d}, Walk rules (inProgress ++ [field]) →
    DependsOn rules field d → d ∈ inProgress ++ [field] → ∀ c,
      (manner (inProgress ++ [field])).breaks c
        (.cyclicDependency (inProgress ++ [field] ++ [d])) c
  misses : ∀ {inProgress field rule e}, Walk rules (inProgress ++ [field]) →
    (field, rule) ∈ rules → engine.findAll rule.canonical.validators = .error e → ∀ c,
      (manner (inProgress ++ [field])).breaks c e c
  defaults : ∀ {inProgress field rule inner}, Walk rules (inProgress ++ [field]) →
    (field, rule) ∈ rules → ("defaultValue", .rules inner) ∈ rule.canonical.modules → ∀ c,
      (manner (inProgress ++ [field])).breaks c (.invalidRule field .defaultFromRules) c
  refuses : ∀ {inProgress field rule config e}, Walk rules (inProgress ++ [field]) →
    (field, rule) ∈ rules → ("objectValidator", config) ∈ rule.canonical.modules →
      Module.nestedRules field config = .error e → ∀ c,
        (manner (inProgress ++ [field])).breaks c e c
  nests : ∀ {inProgress field rule config inner}, Walk rules (inProgress ++ [field]) →
    (field, rule) ∈ rules → ("objectValidator", config) ∈ rule.canonical.modules →
      Module.nestedRules field config = .ok inner → ∀ s : Store Value σ,
        (!engine.settings.strict && s.target.isBlank) = false →
          (engine.announced nested inner false).ObeysAt
            ((manner (inProgress ++ [field])).conduct Value) s
  abandons : ∀ {inProgress field d} (name : String), Walk rules (inProgress ++ [field]) →
    DependsOn rules field d → ∀ c,
      (manner (inProgress ++ [field])).keeps c (engine.observe (.abandoned field name d) c)

namespace Accounted

variable {engine : Engine σ} {nested : NestedValidation σ}

/-- The modules of a declared field keep to the manner of the fields in progress. -/
theorem runModules_obeys {rules : Fields Rule} {manner : List String → Manner σ}
    (h : engine.Accounted nested rules manner) {inProgress : List String} {field : String}
    {rule : Rule} (hwalk : Walk rules (inProgress ++ [field])) (hrule : (field, rule) ∈ rules) :
    (engine.runModules nested field rule.canonical rule.canonical.modules .empty).Obeys
      ((manner (inProgress ++ [field])).conduct Record) := by
  refine runModules_obeys_manner h.modules ?_ ?_ ?_ .empty
  · intro inner hconfig
    exact h.defaults hwalk hrule hconfig
  · intro config hconfig e he
    exact h.refuses hwalk hrule hconfig he
  · intro config hconfig inner hread
    exact h.nests hwalk hrule hconfig hread

/-- Steps that keep to the manners of the caller's state obey the laws of evaluations. -/
theorem governed {rules : Fields Rule} {manner : List String → Manner σ}
    (h : engine.Accounted nested rules manner) :
    Governed engine nested rules (fun inProgress => (manner inProgress).conduct Record)
      (fun inProgress field => (manner (inProgress ++ [field])).conduct Record) where
  keeps_judging hkeeps := hkeeps
  breaks_judging hbreaks := hbreaks
  enters hwalk hrun _ := during_obeysAt (h.returns hwalk) (h.unwinds hwalk) (hrun _)
  cycles hwalk hdep hmem s := h.cycles hwalk hdep hmem s.caller
  misses hwalk hrule hfind s := h.misses hwalk hrule hfind s.caller
  prepares hwalk hrule := h.runModules_obeys hwalk hrule
  abandons name hwalk hdep _ t _ hkeeps :=
    Manner.trans _ hkeeps (h.abandons name hwalk hdep t.caller)

/-- The validation of a value keeps to the manner in which no field is in progress, provided that
there is something to validate. -/
theorem validateBy_obeysAt {rules : Rules} {manner : List String → Manner σ}
    (h : engine.Accounted nested rules.members manner) (force : Bool) {s : Store Value σ}
    (hempty : ∀ fields, rules = .fields fields → s.target.isTruthy = false →
      (manner []).breaks s.caller (.missingTarget s.target.kind) s.caller) :
    (engine.validateBy nested rules force).ObeysAt ((manner []).conduct Value) s := by
  cases rules with
  | fields fields =>
    have hall := h.governed.judgeAll_obeys force fields fun entry hmem => hmem
    show (engine.validateFields nested fields force).ObeysAt _ s
    unfold validateFields
    refine Run.obeysAt_target ?_
    split
    · next hfalsy =>
      rw [Bool.not_eq_true'] at hfalsy
      exact Run.obeysAt_throw (hempty fields rfl hfalsy)
    · refine (focus_obeysAt (hall _)).bind fun reports t _ => ?_
      split <;> exact Run.obeys_pure _ t
  | whole descriptor =>
    have hrule : (wholeField, Rule.descriptor descriptor) ∈
        (Rules.whole descriptor).members := List.mem_singleton.2 rfl
    have hjudge := h.governed.judgeWithin_obeys hrule force
    show (engine.validateWhole nested descriptor force).ObeysAt _ s
    unfold validateWhole
    refine (focus_obeysAt (hjudge _)).bind fun outcome t _ => ?_
    cases outcome <;> exact Run.obeys_pure _ t

end Accounted

end Engine

end Vetting
