import Vetting.Proofs.LikeRules

/-!
# The built-in modules on like fields

A built-in module that is given like configurations and like scopes runs alike: it writes like
values into its field and hands back like contributions, or ends in the same error both times
(`Module.builtin_corresponds`). A coercion writes a number that it has read from a text, and like
values have one text; the module for nested records asks for runs over like rules on like values,
which is where the rules inside rules come in; every other module writes what it is configured with.
-/

set_option autoImplicit false

namespace Vetting

variable {E : Value.Likeness}

/-- Two scopes of a module are like: of one field and one strictness, with like records and like
configurations of the modules beside it. -/
structure Scope.Like {σ : Type} (E : Value.Likeness) (scope scope' : Scope σ) : Prop where
  field : scope.field = scope'.field
  strict : scope.strict = scope'.strict
  record : E.Records scope.record scope'.record
  siblings : Fields.Paired (Configuration.Like E scope.field) scope.rule.modules scope'.rule.modules

/-- Like scopes hold like values in their field. -/
theorem Scope.Like.value {σ : Type} {scope scope' : Scope σ} (h : scope.Like E scope') :
    E.rel scope.value scope'.value := by
  rw [Scope.value, Scope.value, ← h.field]
  exact h.record.read scope.field

/-- Equal findings under the same names in the same order. -/
abbrev Findings.Alike : Findings → Findings → Prop :=
  Fields.Paired fun _ a b => a.same b = true

/-- Two contributions of a module are like: data that is, or equal errors in the same order. -/
inductive Contribution.Like (E : Value.Likeness) : Contribution → Contribution → Prop where
  | aux {v v' : Value} (h : E.rel v v') : Like E (.aux v) (.aux v')
  | errors {errors errors' : Findings} (h : Findings.Alike errors errors') :
      Like E (.errors errors) (.errors errors')

/-- Two runs correspond if they are related whatever their callers keep. -/
abbrev Run.Corresponds {τ σ α : Type} (T : τ → τ → Prop) (A : α → α → Prop) (run run' : Run τ σ α) :
    Prop :=
  Run.Related noError T (fun _ _ => True) A run run'

/-- Two runs of validation correspond: like values end in equal outcomes, or in the same error, and
stay like. -/
abbrev Outcome.Corresponds {σ : Type} (E : Value.Likeness) (run run' : Run Value σ Outcome) :
    Prop :=
  Run.Corresponds E.rel (fun outcome outcome' => outcome.same outcome' = true) run run'

namespace Module

variable {σ : Type} {field name : String} {config config' : Configuration}
  {scope scope' : Scope σ}

/-- Two runs of modules correspond: they write like values, and hand back like contributions. -/
abbrev Corresponds (E : Value.Likeness)
    (run run' : Run (Option Value) σ (Option Contribution)) : Prop :=
  Run.Corresponds (Option.Rel E.rel) (Option.Rel (Contribution.Like E)) run run'

/-- Doing nothing corresponds to doing nothing. -/
theorem corresponds_none :
    Corresponds E (pure none : Run (Option Value) σ (Option Contribution)) (pure none) :=
  Run.related_pure .none

/-- Writing a value corresponds to writing a like one. -/
theorem corresponds_write {v v' : Value} (h : E.rel v v') :
    Corresponds E (do write v; return none : Run (Option Value) σ (Option Contribution))
      (do write v'; return none) :=
  (Run.related_setTarget (.some h)).bind fun _ _ _ => corresponds_none

/-! ## What is read off the values of the fields -/

/-- Like values are coerced by the same text. -/
theorem coercibleText?_eq {v v' : Value} (h : v.Unordered v') :
    coercibleText? v = coercibleText? v' := by
  cases h <;> rfl

/-- Like values spell the same number. -/
theorem floatOfValue?_eq {v v' : Value} (h : v.Unordered v') :
    floatOfValue? v = floatOfValue? v' := by
  rw [floatOfValue?, floatOfValue?, coercibleText?_eq h]

/-- The value of a number is like itself. -/
theorem rel_ofExtended (x : Extended) : E.rel (.ofExtended x) (.ofExtended x) := by
  cases x with
  | finite d =>
    rw [Value.ofExtended]
    split <;> exact E.scalar _ nofun nofun
  | _ => exact E.scalar _ nofun nofun

/-- The value that a text is coerced to is like itself. -/
theorem rel_intOfText? {text : String} {v : Value} (h : intOfText? text = some v) :
    E.rel v v := by
  unfold intOfText? at h
  split at h
  · cases h
    exact E.scalar _ nofun nofun
  · obtain ⟨x, -, rfl⟩ := Option.map_eq_some_iff.1 h
    exact rel_ofExtended _

/-! ## The modules, one by one -/

section Scopes

variable (hscope : scope.Like E scope')

include hscope

/-- Trimming like values corresponds. -/
theorem trimValue_corresponds (hconfig : config.Like E field name config') :
    Corresponds E (trimValue config scope) (trimValue config' scope') := by
  unfold trimValue
  rw [hconfig.isEnabled_eq]
  have hvalue := E.unordered hscope.value
  generalize scope.value = v, scope'.value = v' at hvalue
  split
  · cases hvalue with
    | string text =>
      dsimp only
      split
      · exact corresponds_write (E.scalar _ nofun nofun)
      · exact corresponds_none
    | _ => exact corresponds_none
  · exact corresponds_none

/-- Putting like default values into like fields corresponds. -/
theorem defaultValue_corresponds (hconfig : config.Like E field name config') :
    Corresponds E (defaultValue config scope) (defaultValue config' scope') := by
  unfold defaultValue
  rw [(E.unordered hscope.value).isBlank_eq, ← hscope.field]
  split
  · cases hconfig with
    | value h => exact corresponds_write h
    | function h => exact corresponds_write (h _ _ hscope.record)
    | rules => exact fun _ _ hstores => .error _ hstores
  · exact corresponds_none

/-- Coercing like values to an integer corresponds. -/
theorem int_corresponds (hconfig : config.Like E field name config') :
    Corresponds E (int config scope) (int config' scope') := by
  unfold int
  rw [hconfig.isPlainTrue_eq, coercibleText?_eq (E.unordered hscope.value)]
  split
  · split
    · split
      · split
        · next v hv => exact corresponds_write (rel_intOfText? hv)
        · exact corresponds_none
      · exact corresponds_none
    · exact corresponds_none
  · exact corresponds_none

/-- Coercing like values to a float corresponds. -/
theorem float_corresponds (hconfig : config.Like E field name config') :
    Corresponds E (float config scope) (float config' scope') := by
  unfold float
  rw [hconfig.isPlainTrue_eq, floatOfValue?_eq (E.unordered hscope.value)]
  split
  · split
    · exact corresponds_write (rel_ofExtended _)
    · exact corresponds_none
  · exact corresponds_none

/-- Like siblings switch floats off alike. -/
theorem floatsOff_eq : floatsOff scope = floatsOff scope' := by
  have hsibling := hscope.siblings.get? "float"
  unfold floatsOff Scope.sibling?
  generalize scope.rule.modules.get? "float" = config, scope'.rule.modules.get? "float" = config'
    at hsibling
  cases hsibling with
  | none => rfl
  | some hlike =>
    cases hlike with
    | value h => cases E.unordered h <;> rfl
    | rules => rfl
    | function => rfl

/-- Like configurations ask for the same rounding. -/
theorem roundingOf_eq (hconfig : config.Like E field name config') :
    roundingOf config scope = roundingOf config' scope' := by
  cases hconfig with
  | value h =>
    cases E.unordered h with
    | number n => simp only [roundingOf, floatsOff_eq hscope]
    | bool b => cases b <;> rfl
    | _ => rfl
  | rules => rfl
  | function => rfl

/-- Rounding like values corresponds. -/
theorem roundedFloat_corresponds (hconfig : config.Like E field name config') :
    Corresponds E (roundedFloat config scope) (roundedFloat config' scope') := by
  unfold roundedFloat
  rw [roundingOf_eq hscope hconfig, floatOfValue?_eq (E.unordered hscope.value)]
  split
  · exact corresponds_none
  · split
    · exact corresponds_write (rel_ofExtended _)
    · exact corresponds_none
  · split
    · exact corresponds_write (rel_ofExtended _)
    · exact corresponds_none

/-- Calling like functions of like records corresponds. -/
theorem customFunction_corresponds (hconfig : config.Like E field name config') :
    Corresponds E (customFunction config scope) (customFunction config' scope') := by
  cases hconfig with
  | value => exact corresponds_none
  | rules => exact corresponds_none
  | function h => exact corresponds_write (h _ _ hscope.record)

omit hscope in
/-- Handing on like titles corresponds. -/
theorem title_corresponds (hconfig : config.Like E field name config') :
    Corresponds E (title config scope) (title config' scope') := by
  cases hconfig with
  | value h => exact Run.related_pure (.some (.aux h))
  | rules => exact corresponds_none
  | function => exact corresponds_none

/-- The module for nested records asks for runs over like rules on like values. -/
theorem objectValidator_corresponds (hconfig : config.Like E scope.field "objectValidator" config')
    (hnested : ∀ inner inner', nestedRules scope.field config = .ok inner →
      inner.Like E inner' →
        Outcome.Corresponds E (scope.validate inner false) (scope'.validate inner' false)) :
    Corresponds E (objectValidator config scope) (objectValidator config' scope') := by
  unfold objectValidator
  rw [(E.unordered hscope.value).isBlank_eq, hscope.strict, ← hscope.field]
  split
  · exact corresponds_none
  · refine (Run.related_ofExcept hconfig.nestedRules.with_eq).bind ?_
    rintro inner inner' ⟨hinner, hlike⟩
    refine ((hnested inner inner' hinner hlike).beside hscope.value).bind ?_
    rintro ⟨outcome, v⟩ ⟨outcome', v'⟩ ⟨hsame, hv⟩
    refine (Run.related_setTarget (.some hv)).bind fun _ _ _ => ?_
    have herrors : Findings.Alike [("objectValidator", .nested outcome)]
        [("objectValidator", .nested outcome')] :=
      .cons List.not_mem_nil (by rwa [Finding.same]) .nil
    have hreported : Corresponds E
        (return some (.errors [("objectValidator", .nested outcome)]) :
          Run (Option Value) σ (Option Contribution))
        (return some (.errors [("objectValidator", .nested outcome')])) :=
      Run.related_pure (.some (.errors herrors))
    -- equal outcomes are of one kind
    cases outcome <;> cases outcome' <;>
      first
      | exact corresponds_none
      | exact hreported
      | simp [Outcome.same] at hsame

end Scopes

/-- Each built-in module that is given like configurations and like scopes runs alike, if nested
runs over the rules of its configuration do. -/
theorem builtin_corresponds {module : Module σ}
    (hmem : (name, module) ∈ (builtins : List (String × Module σ)))
    (hscope : scope.Like E scope') (hconfig : config.Like E scope.field name config')
    (hnested : ∀ inner inner', nestedRules scope.field config = .ok inner →
      inner.Like E inner' →
        Outcome.Corresponds E (scope.validate inner false) (scope'.validate inner' false)) :
    Corresponds E (module config scope) (module config' scope') := by
  simp only [builtins, List.mem_cons, Prod.mk.injEq, List.not_mem_nil, or_false] at hmem
  rcases hmem with ⟨-, rfl⟩ | ⟨-, rfl⟩ | ⟨-, rfl⟩ | ⟨-, rfl⟩ | ⟨-, rfl⟩ | ⟨rfl, rfl⟩ | ⟨-, rfl⟩ |
    ⟨-, rfl⟩
  · exact trimValue_corresponds hscope hconfig
  · exact defaultValue_corresponds hscope hconfig
  · exact int_corresponds hscope hconfig
  · exact float_corresponds hscope hconfig
  · exact roundedFloat_corresponds hscope hconfig
  · exact objectValidator_corresponds hscope hconfig hnested
  · exact customFunction_corresponds hscope hconfig
  · exact title_corresponds hconfig

end Module

end Vetting
