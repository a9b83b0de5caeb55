import Vetting.Proofs.FieldClosure
import Vetting.Proofs.ModuleEffects
import Vetting.Proofs.RunFrame
import Vetting.Proofs.RunsToKnownRecord

/-!
# Simple coercions

Rules that spell everything out may still change the record: a field may be trimmed, or given a
default value. If it is not both, a second pass of its modules changes nothing (`pass_pass`), so
each field of a record has one value that it is brought to, whenever its modules run and however
often. The record of these values (`finalRecord`) is known beforehand, and every run by such rules
is on a course to it (`course_of_simple`).
-/

set_option autoImplicit false

namespace Vetting

/-- What a module does to the content of its field. -/
inductive Coercion where
  | keep
  | trim
  | default (d : Value)

namespace Coercion

/-- The content of a field, if it has one, after a coercion. -/
def apply : Coercion → Option Value → Option Value
  | .keep, x => x
  | .trim, x => x.map Value.trimmed
  | .default d, x => if (x.getD .null).isBlank then some d else x

/-- A coercion has nothing left to do the second time. -/
theorem apply_apply (coercion : Coercion) (x : Option Value) :
    coercion.apply (coercion.apply x) = coercion.apply x := by
  cases coercion with
  | keep => rfl
  | trim =>
    cases x with
    | none => rfl
    | some v => simp [apply, Value.trimmed_trimmed]
  | default d =>
    by_cases hblank : (x.getD .null).isBlank
    · simp [apply, hblank]
    · simp [apply, hblank]

/-- A field that is there stays there. -/
theorem apply_ne_none (coercion : Coercion) {x : Option Value} (h : x ≠ none) :
    coercion.apply x ≠ none := by
  cases coercion with
  | keep => exact h
  | trim => simpa [apply] using h
  | default d =>
    rw [apply]
    split
    · simp
    · exact h

end Coercion

/-- Whether a module of a name coerces. -/
def Coerces (name : String) : Prop := name = "trimValue" ∨ name = "defaultValue"

instance (name : String) : Decidable (Coerces name) :=
  inferInstanceAs (Decidable (name = "trimValue" ∨ name = "defaultValue"))

/-- A field holds what was put there, or what it held if nothing was. -/
theorem Fields.get?_putIf_self (record : Record) (name : String) (written : Option Value) :
    (record.putIf name written).get? name = written.or (record.get? name) := by
  cases written with
  | none => rfl
  | some v => rw [putIf, get?_put_self, Option.some_or]

/-- The other fields hold what they held. -/
theorem Fields.get?_putIf_of_ne (record : Record) {name other : String} (written : Option Value)
    (hne : other ≠ name) : (record.putIf name written).get? other = record.get? other := by
  cases written with
  | none => rfl
  | some v => exact get?_put_of_ne record v hne

namespace Engine

variable {σ : Type}

/-- Modules that hand on a title, trim, or put in a plain default value, by the built-in module of
the name; of those that coerce there is at most one. -/
structure Simple (engine : Engine σ) (configs : Fields Configuration) : Prop where
  modules : ∀ name config, (name, config) ∈ configs → ∀ module,
    engine.modules.get? name = some module →
      name = "title" ∧ module = Module.title ∨ name = "trimValue" ∧ module = Module.trimValue ∨
        name = "defaultValue" ∧ module = Module.defaultValue ∧ ∃ d, config = .value d
  single : configs.keys.Pairwise fun a b => ¬ (Coerces a ∧ Coerces b)

/-- What a configured module does to its field. -/
def coercion (engine : Engine σ) (entry : String × Configuration) : Coercion :=
  if engine.modules.contains entry.1 then
    if entry.1 = "trimValue" then if entry.2.isEnabled then .trim else .keep
    else if entry.1 = "defaultValue" then
      match entry.2 with
      | .value d => .default d
      | _ => .keep
    else .keep
  else .keep

/-- What a configured module hands back. -/
def handed (engine : Engine σ) (entry : String × Configuration) : Option Contribution :=
  if engine.modules.contains entry.1 && entry.1 == "title" then entry.2.value?.map .aux else none

/-- The content of a field after a pass of its modules. -/
def pass (engine : Engine σ) (configs : Fields Configuration) (x : Option Value) : Option Value :=
  configs.foldl (fun x entry => (engine.coercion entry).apply x) x

/-- What the modules of a field hand back in a pass. -/
def handedBack (engine : Engine σ) (configs : Fields Configuration) (results : Contributions) :
    Contributions :=
  configs.foldl (fun results entry => results.add entry.1 (engine.handed entry)) results

section Pass

variable {engine : Engine σ} {nested : NestedValidation σ} {field : String} {form : CanonicalForm}
  {configs : Fields Configuration}

/-- Of the built-in modules those that trim, put in a plain default value or hand on a title are
simple. -/
theorem simple_of_builtin (hmodules : engine.modules = KnownModules.builtin)
    (hconfigs : ∀ entry ∈ configs, entry.1 = "title" ∨ entry.1 = "trimValue" ∨
      entry.1 = "defaultValue" ∧ ∃ d, entry.2 = .value d)
    (hsingle : configs.keys.Pairwise fun a b => ¬ (Coerces a ∧ Coerces b)) :
    engine.Simple configs where
  modules := by
    intro name config hentry module hget
    rw [hmodules] at hget
    have hnames : name = "title" ∨ name = "trimValue" ∨
      name = "defaultValue" ∧ ∃ d, config = .value d := hconfigs (name, config) hentry
    rcases hnames with rfl | rfl | ⟨rfl, hdefault⟩
    · exact Or.inl ⟨rfl, (Option.some.inj hget).symm⟩
    · exact Or.inr (Or.inl ⟨rfl, (Option.some.inj hget).symm⟩)
    · exact Or.inr (Or.inr ⟨rfl, (Option.some.inj hget).symm, hdefault⟩)
  single := hsingle

/-- A simple module runs to the end and does to its field what is said of it. -/
theorem runModule_simple {name : String} {config : Configuration} {module : Module σ}
    (hget : engine.modules.get? name = some module)
    (hmodule : name = "title" ∧ module = Module.title ∨
      name = "trimValue" ∧ module = Module.trimValue ∨
        name = "defaultValue" ∧ module = Module.defaultValue ∧ ∃ d, config = .value d)
    (s : Store Record σ) :
    ∃ written, engine.runModule nested field form config module s =
        .ok (engine.handed (name, config)) ⟨s.target.putIf field written, s.caller⟩ ∧
      written.or (s.target.get? field) =
        (engine.coercion (name, config)).apply (s.target.get? field) := by
  have hcontains := Registry.contains_of_get? hget
  have hvalue : (⟨field, form, engine.settings.strict, s.target, engine.announced nested⟩ :
      Scope σ).value = (s.target.get? field).getD .null := rfl
  rcases hmodule with ⟨rfl, rfl⟩ | ⟨rfl, rfl⟩ | ⟨rfl, rfl, d, rfl⟩
  · refine ⟨none, runModule_eq_ok_iff.2 ⟨⟨none, s.caller⟩, ?_, rfl⟩, ?_⟩
    · simp [Module.title, handed, hcontains]
    · simp [coercion, Coercion.apply]
  · obtain ⟨written, hends, hwritten⟩ := Module.trimValue_writes config _ s.caller hvalue
    refine ⟨written, runModule_eq_ok_iff.2 ⟨⟨written, s.caller⟩, ?_, rfl⟩, ?_⟩
    · simp [hends, handed]
    · rw [hwritten, coercion, if_pos hcontains, if_pos rfl]
      split <;> rfl
  · obtain ⟨written, hends, hwritten⟩ := Module.defaultValue_writes d _ s.caller hvalue
    refine ⟨written, runModule_eq_ok_iff.2 ⟨⟨written, s.caller⟩, ?_, rfl⟩, ?_⟩
    · simp [hends, handed]
    · simp [hwritten, coercion, hcontains, Coercion.apply]

/-- A pass of simple modules runs to the end and does to the field what is said of it. -/
theorem runModules_simple (h : engine.Simple configs) (results : Contributions)
    (s : Store Record σ) :
    ∃ t, engine.runModules nested field form configs results s =
        .ok (engine.handedBack configs results) t ∧
      t.target.get? field = engine.pass configs (s.target.get? field) ∧
      ∀ other, other ≠ field → t.target.get? other = s.target.get? other := by
  have hmodules := h.modules
  clear h
  induction configs generalizing results s with
  | nil => exact ⟨s, rfl, rfl, fun _ _ => rfl⟩
  | cons entry rest ih =>
    obtain ⟨name, config⟩ := entry
    have hrest := fun name config hmem => hmodules name config (List.mem_cons_of_mem _ hmem)
    rw [runModules, handedBack, pass, List.foldl_cons, List.foldl_cons]
    cases hget : engine.modules.get? name with
    | none =>
      have hcontains : engine.modules.contains name = false := by
        rw [Registry.contains_eq_isSome, hget]
        rfl
      have hkeep : engine.coercion (name, config) = .keep := by simp [coercion, hcontains]
      have hnothing : engine.handed (name, config) = none := by simp [handed, hcontains]
      rw [hkeep, hnothing]
      exact ih results s hrest
    | some module =>
      obtain ⟨written, hrun, hwritten⟩ := runModule_simple hget
        (hmodules name config List.mem_cons_self module hget) s
      obtain ⟨t, hpass, hfield, hothers⟩ := ih (results.add name (engine.handed (name, config)))
        ⟨s.target.putIf field written, s.caller⟩ hrest
      refine ⟨t, Run.bind_eq_ok.2 ⟨_, _, hrun, hpass⟩, ?_, fun other hother => ?_⟩
      · rw [hfield, Fields.get?_putIf_self, hwritten, pass]
      · rw [hothers other hother, Fields.get?_putIf_of_ne _ _ hother]

/-- Simple modules hand back no errors. -/
theorem errors_handedBack (results : Contributions) :
    (engine.handedBack configs results).errors = results.errors := by
  induction configs generalizing results with
  | nil => rfl
  | cons entry rest ih =>
    have hfirst : (results.add entry.1 (engine.handed entry)).errors = results.errors := by
      unfold handed
      split
      · cases entry.2.value? <;> rfl
      · rfl
    rw [handedBack, List.foldl_cons, ← hfirst]
    exact ih _

/-- A module that does not coerce, or is not registered, keeps the content. -/
theorem coercion_eq_keep {entry : String × Configuration}
    (h : Coerces entry.1 → engine.modules.contains entry.1 = false) :
    engine.coercion entry = .keep := by
  unfold coercion
  by_cases hcontains : engine.modules.contains entry.1 = true
  · have hname : ¬ Coerces entry.1 := by
      intro hname
      rw [h hname] at hcontains
      cases hcontains
    rw [Coerces, not_or] at hname
    rw [if_pos hcontains, if_neg hname.1, if_neg hname.2]
  · rw [if_neg hcontains]

/-- Modules that all keep the content keep it in a pass. -/
theorem pass_of_keep (h : ∀ entry ∈ configs, engine.coercion entry = .keep) (x : Option Value) :
    engine.pass configs x = x := by
  induction configs with
  | nil => rfl
  | cons entry rest ih =>
    rw [pass, List.foldl_cons, h entry List.mem_cons_self]
    exact ih fun entry hentry => h entry (List.mem_cons_of_mem _ hentry)

/-- With at most one module that coerces, a second pass changes nothing. -/
theorem pass_pass (h : configs.keys.Pairwise fun a b => ¬ (Coerces a ∧ Coerces b))
    (x : Option Value) : engine.pass configs (engine.pass configs x) = engine.pass configs x := by
  induction configs generalizing x with
  | nil => rfl
  | cons entry rest ih =>
    rw [Fields.keys, List.map_cons, List.pairwise_cons] at h
    by_cases hfirst : Coerces entry.1
    · have hrest : ∀ x, engine.pass rest x = x := by
        apply pass_of_keep
        intro other hother
        apply coercion_eq_keep
        intro hname
        exact absurd ⟨hfirst, hname⟩ (h.1 other.1 (List.mem_map_of_mem hother))
      have hall : ∀ x, engine.pass (entry :: rest) x = (engine.coercion entry).apply x := by
        intro x
        rw [pass, List.foldl_cons]
        exact hrest _
      rw [hall, hall, Coercion.apply_apply]
    · have hkeep : engine.coercion entry = .keep :=
        coercion_eq_keep fun hname => absurd hname hfirst
      have hall : ∀ x, engine.pass (entry :: rest) x = engine.pass rest x := by
        intro x
        rw [pass, List.foldl_cons, hkeep]
        rfl
      rw [hall, hall, ih h.2]

/-- A field that is there is there after a pass. -/
theorem pass_ne_none {x : Option Value} (h : x ≠ none) : engine.pass configs x ≠ none := by
  induction configs generalizing x with
  | nil => exact h
  | cons entry rest ih =>
    rw [pass, List.foldl_cons]
    exact ih ((engine.coercion entry).apply_ne_none h)

end Pass

/-! ## The values that the fields are brought to -/

/-- The content that a field of a record is brought to. -/
def broughtTo (engine : Engine σ) (rules : Fields Rule) (start : Record) (name : String) :
    Option Value :=
  match rules.get? name with
  | none => start.get? name
  | some rule => engine.pass rule.canonical.modules (start.get? name)

/-- The data that a field is reported with. -/
def auxOf (engine : Engine σ) (rules : Fields Rule) (field : String) : Fields Value :=
  match rules.get? field with
  | none => []
  | some rule => (engine.handedBack rule.canonical.modules .empty).aux

/-- A record with every declared field brought to its content. -/
def finalRecord (engine : Engine σ) : Fields Rule → Record → Record
  | [], record => record
  | (field, rule) :: rest, record =>
    finalRecord engine rest
      (record.putIf field (engine.pass rule.canonical.modules (record.get? field)))

/-- The fields that have their final values whenever a validator of a field fails: those that no
module writes into, the field itself, and the fields that the validator depends on. -/
def SettledFor (engine : Engine σ) (rules : Fields Rule) (field : String) (spec : Spec)
    (name : String) : Prop :=
  ¬ engine.Writes rules name ∨ name = field ∨ name ∈ spec.values.filterMap Param.dependency?

/-- Rules that spell everything out, with simple modules; the default messages that they leave in
place go by fields that have their final values by then. -/
structure SimpleRules (engine : Engine σ) (rules : Fields Rule) : Prop where
  distinct : rules.Distinct
  explicit : ∀ entry ∈ rules, entry.2.Explicit
  simple : ∀ entry ∈ rules, engine.Simple entry.2.canonical.modules
  defaults : ∀ field rule, (field, rule) ∈ rules → ∀ name spec,
    (name, spec) ∈ rule.canonical.validators → spec.message = none → ∀ validator,
      engine.validators.get? name = some validator →
        validator.message.Within (engine.SettledFor rules field spec)

section Final

variable {engine : Engine σ} {rules : Fields Rule}

/-- In the final record each field has the content that it is brought to. -/
theorem get?_finalRecord (hdistinct : rules.Distinct) (start : Record) (name : String) :
    (engine.finalRecord rules start).get? name = engine.broughtTo rules start name := by
  induction rules generalizing start with
  | nil => rfl
  | cons entry rest ih =>
    obtain ⟨field, rule⟩ := entry
    have hparts : field ∉ Fields.keys rest ∧ Fields.Distinct rest := List.nodup_cons.1 hdistinct
    rw [finalRecord, ih hparts.2, broughtTo, broughtTo, Fields.get?_cons]
    by_cases hsame : name = field
    · rw [if_pos hsame, hsame, Fields.get?_eq_none hparts.1, Fields.get?_putIf_self]
      dsimp only
      by_cases hnone : start.get? field = none
      · rw [hnone, Option.or_none]
      · have hthere : engine.pass rule.canonical.modules (start.get? field) ≠ none :=
          pass_ne_none hnone
        obtain ⟨v, hv⟩ := Option.ne_none_iff_exists'.1 hthere
        rw [hv, Option.some_or]
    · rw [if_neg hsame, Fields.get?_putIf_of_ne _ _ hsame]

/-- A field that no module writes into is brought to what it has. -/
theorem broughtTo_of_not_writes {name : String} (h : ¬ engine.Writes rules name) (start : Record) :
    engine.broughtTo rules start name = start.get? name := by
  unfold broughtTo
  cases hget : rules.get? name with
  | none => rfl
  | some rule =>
    apply pass_of_keep
    intro entry hentry
    apply coercion_eq_keep
    intro _
    by_contra hcontains
    rw [Bool.not_eq_false] at hcontains
    exact h ⟨rule, Fields.mem_of_get? hget, entry.1, List.mem_map_of_mem hentry, hcontains⟩

/-- Each field has the content that it has in one or in the other of two records. -/
def Between (start final : Record) (record : Record) : Prop :=
  ∀ name, record.get? name = start.get? name ∨ record.get? name = final.get? name

/-- A field that holds at the end what it held at the start holds it in between. -/
theorem Between.get?_eq {start final record : Record} (h : Between start final record)
    {name : String} (hstay : final.get? name = start.get? name) :
    record.get? name = final.get? name := by
  rcases h name with hstart | hthere
  · rw [hstart, hstay]
  · exact hthere

/-- A pass of simple modules brings their field to its content from any record on the way. -/
theorem prepares_of_simple (h : engine.SimpleRules rules) (nested : NestedValidation σ)
    {start final : Record} (hfinal : ∀ name, final.get? name = engine.broughtTo rules start name)
    {field : String} {rule : Rule} (hrule : (field, rule) ∈ rules) (s : Store Record σ)
    (hs : Between start final s.target) :
    ∃ t, engine.runModules nested field rule.canonical rule.canonical.modules .empty s =
        .ok ⟨engine.auxOf rules field, []⟩ t ∧
      Nearer (Between start final) final s.target t.target ∧
      t.target.get? field = final.get? field := by
  have hget := Fields.get?_of_mem h.distinct hrule
  have hsimple := h.simple _ hrule
  obtain ⟨t, hrun, hfield, hothers⟩ := runModules_simple hsimple .empty s
  have hwant : final.get? field = engine.pass rule.canonical.modules (start.get? field) := by
    rw [hfinal, broughtTo, hget]
  have hsettled : t.target.get? field = final.get? field := by
    rcases hs field with hstart | hthere
    · rw [hfield, hstart, hwant]
    · rw [hfield, hthere, hwant, pass_pass hsimple.single]
  have hcontributions : engine.handedBack rule.canonical.modules .empty =
      ⟨engine.auxOf rules field, []⟩ := by
    have herrors : (engine.handedBack rule.canonical.modules .empty).errors = [] :=
      errors_handedBack .empty
    rw [auxOf, hget, ← herrors]
  rw [← hcontributions]
  refine ⟨t, hrun, ⟨fun name => ?_, fun name hname => ?_⟩, hsettled⟩
  · by_cases hsame : name = field
    · rw [hsame]
      exact Or.inr hsettled
    · rw [hothers name hsame]
      exact hs name
  · by_cases hsame : name = field
    · rw [hsame]
      exact hsettled
    · rw [hothers name hsame]
      exact hname

/-- Simple rules bring every field of a record to its content, whenever and however often the
modules of the field run. -/
theorem course_of_simple (h : engine.SimpleRules rules) (nested : NestedValidation σ)
    {start final : Record}
    (hfinal : ∀ name, final.get? name = engine.broughtTo rules start name) :
    engine.Course nested rules (Between start final) final (engine.auxOf rules) where
  prepares _ _ hrule s hs := prepares_of_simple h nested hfinal hrule s hs
  undeclared := by
    intro name hnone r hr
    apply hr.get?_eq
    rw [hfinal, broughtTo, hnone]
  specs := by
    intro field rule hrule name spec hspec validator hvalidator r hr
    have hplain := (h.explicit _ hrule).plain name spec hspec
    have hwithin : (spec.message.getD validator.message).Within
        (engine.SettledFor rules field spec) := by
      apply Spec.message_within ((h.explicit _ hrule).messages name spec hspec)
      exact fun hnone => h.defaults field rule hrule name spec hspec hnone validator hvalidator
    refine ⟨hplain.bind_eq r final, hplain.expectedResult_eq r final, ?_⟩
    intro hown hdependencies
    apply hwithin r final
    rintro other (hunwritten | rfl | hdependency)
    · apply hr.get?_eq
      rw [hfinal, broughtTo_of_not_writes hunwritten]
    · exact hown
    · exact hdependencies other hdependency

end Final

end Engine

end Vetting
