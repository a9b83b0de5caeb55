import Vetting.Module.Builtin
import Vetting.Proofs.RunConduct

/-!
# What a built-in module can do

Seven of the eight built-in modules finish on their own: they look at their scope, may write into
their field, hand back at most plain data, and leave the state of the caller alone; the only error
among them is the one of a default value given as rules (`builtin_ends`). The eighth, the module for
nested records, passes over a blank value outside strict mode and otherwise makes one nested run
over the rules that its configuration holds or describes. What a module has written, if anything,
goes into its field (`Fields.putIf`).
-/

set_option autoImplicit false

namespace Vetting

namespace Fields

variable {α : Type}

/-- Writes a value, if there is one to write. -/
def putIf (fields : Fields α) (name : String) : Option α → Fields α
  | some value => fields.put name value
  | none => fields

/-- Of two values put under one name the second stays. -/
theorem put_put (fields : Fields α) (name : String) (first second : α) :
    (fields.put name first).put name second = fields.put name second := by
  induction fields with
  | nil => simp [put]
  | cons entry rest ih =>
    obtain ⟨key, old⟩ := entry
    by_cases h : key = name
    · simp [put, h]
    · simp [put, h, ih]

/-- Putting in the value that is there changes nothing. -/
theorem put_of_get? {fields : Fields α} {name : String} {value : α}
    (h : fields.get? name = some value) : fields.put name value = fields := by
  induction fields with
  | nil => cases h
  | cons entry rest ih =>
    obtain ⟨key, old⟩ := entry
    rw [get?_cons] at h
    by_cases hkey : name = key
    · rw [if_pos hkey, Option.some.injEq] at h
      rw [put, if_pos hkey.symm, h]
    · rw [if_neg hkey] at h
      rw [put, if_neg (Ne.symm hkey), ih h]

/-- Of two values that may be put under one name the last that is given stays. -/
theorem putIf_putIf (fields : Fields α) (name : String) (first second : Option α) :
    (fields.putIf name first).putIf name second = fields.putIf name (second <|> first) := by
  cases second with
  | none => rfl
  | some v =>
    cases first with
    | none => rfl
    | some w => exact put_put fields name w v

/-- A field reads as what was put there, or as before if nothing was. -/
theorem read_putIf (record : Record) (name : String) (written : Option Value) :
    (record.putIf name written).read name = written.getD (record.read name) := by
  cases written with
  | none => rfl
  | some v => rw [putIf, read, get?_put_self, Option.getD_some, Option.getD_some]

/-- What is written into a field that is there, and leaves its value, leaves the record. -/
theorem putIf_of_read {record : Record} {name : String} {written : Option Value}
    (hpresent : record.get? name ≠ none)
    (hread : (record.putIf name written).read name = record.read name) :
    record.putIf name written = record := by
  cases written with
  | none => rfl
  | some v =>
    obtain ⟨w, hlook⟩ := Option.ne_none_iff_exists'.1 hpresent
    have hvalue : v = w := by
      rwa [read_putIf, Option.getD_some, read, hlook, Option.getD_some] at hread
    rw [← hvalue] at hlook
    exact put_of_get? hlook

end Fields

namespace KnownModules

variable {σ : Type}

/-- What the built-in registry holds under a name is the built-in module of that name. -/
theorem mem_of_builtin_get? {name : String} {module : Module σ}
    (h : (builtin : KnownModules σ).get? name = some module) :
    (name, module) ∈ (Module.builtins : List (String × Module σ)) :=
  Registry.mem_of_get?_ofPairs h

end KnownModules

namespace Module

variable {σ : Type}

/-- A run of a module that does no more than write into its field. -/
def Quiet (run : Run (Option Value) σ (Option Contribution)) : Prop :=
  ∀ s, ∃ written, run s = .ok none ⟨written, s.caller⟩

/-- Doing nothing is quiet. -/
theorem quiet_pure : Quiet (pure none : Run (Option Value) σ (Option Contribution)) :=
  fun s => ⟨s.target, rfl⟩

/-- Writing a value is quiet. -/
theorem quiet_write (v : Value) :
    Quiet (do write v; pure none : Run (Option Value) σ (Option Contribution)) :=
  fun _ => ⟨some v, rfl⟩

/-- The module for trimming is quiet. -/
theorem quiet_trimValue (config : Configuration) (scope : Scope σ) :
    Quiet (trimValue config scope) := by
  unfold trimValue
  split
  · split
    · split
      · exact quiet_write _
      · exact quiet_pure
    · exact quiet_pure
  · exact quiet_pure

/-- The module that coerces to an integer is quiet. -/
theorem quiet_int (config : Configuration) (scope : Scope σ) : Quiet (int config scope) := by
  unfold int
  split
  · split
    · split
      · split
        · exact quiet_write _
        · exact quiet_pure
      · exact quiet_pure
    · exact quiet_pure
  · exact quiet_pure

/-- The module that coerces to a float is quiet. -/
theorem quiet_float (config : Configuration) (scope : Scope σ) :
    Quiet (float config scope) := by
  unfold float
  split
  · split
    · exact quiet_write _
    · exact quiet_pure
  · exact quiet_pure

/-- The module that rounds is quiet. -/
theorem quiet_roundedFloat (config : Configuration) (scope : Scope σ) :
    Quiet (roundedFloat config scope) := by
  unfold roundedFloat
  split
  · exact quiet_pure
  · split
    · exact quiet_write _
    · exact quiet_pure
  · split
    · exact quiet_write _
    · exact quiet_pure

/-- The module that calls a function of the record is quiet. -/
theorem quiet_customFunction (config : Configuration) (scope : Scope σ) :
    Quiet (customFunction config scope) := by
  unfold customFunction
  split
  · exact quiet_write _
  · exact quiet_pure

/-- Only rules are no default value; then the module fails and has changed nothing. -/
theorem defaultValue_ends (config : Configuration) (scope : Scope σ) :
    Quiet (defaultValue config scope) ∨
      (∃ rules, config = .rules rules) ∧
        defaultValue config scope = throw (.invalidRule scope.field .defaultFromRules) := by
  unfold defaultValue
  split
  · cases config with
    | value v => exact Or.inl (quiet_write v)
    | function hook => exact Or.inl (quiet_write _)
    | rules rules => exact Or.inr ⟨⟨rules, rfl⟩, rfl⟩
  · exact Or.inl quiet_pure

/-- How a built-in module that starts no nested run ends: with a result, with at most data to hand
on and the caller's state as it was, or with the error of a default value given as rules. -/
theorem builtin_ends {name : String} {module : Module σ}
    (hmem : (name, module) ∈ (builtins : List (String × Module σ)))
    (hname : name ≠ "objectValidator") (config : Configuration) (scope : Scope σ)
    (s : Store (Option Value) σ) :
    (∃ out written, module config scope s = .ok out ⟨written, s.caller⟩ ∧
      (out = none ∨ name = "title" ∧ ∃ v, out = some (.aux v))) ∨
    (name = "defaultValue" ∧ (∃ rules, config = .rules rules) ∧
      module config scope s = .error (.invalidRule scope.field .defaultFromRules) s) := by
  have hquiet : ∀ {run : Run (Option Value) σ (Option Contribution)}, Quiet run →
      ∃ out written, run s = .ok out ⟨written, s.caller⟩ ∧
        (out = none ∨ name = "title" ∧ ∃ v, out = some (.aux v)) := by
    intro run h
    obtain ⟨written, hrun⟩ := h s
    exact ⟨none, written, hrun, Or.inl rfl⟩
  simp only [builtins, List.mem_cons, Prod.mk.injEq, List.not_mem_nil, or_false] at hmem
  rcases hmem with ⟨rfl, rfl⟩ | ⟨rfl, rfl⟩ | ⟨rfl, rfl⟩ | ⟨rfl, rfl⟩ | ⟨rfl, rfl⟩ | ⟨rfl, rfl⟩ |
    ⟨rfl, rfl⟩ | ⟨rfl, rfl⟩
  · exact Or.inl (hquiet (quiet_trimValue config scope))
  · rcases defaultValue_ends config scope with h | ⟨hrules, h⟩
    · exact Or.inl (hquiet h)
    · exact Or.inr ⟨rfl, hrules, by rw [h]; rfl⟩
  · exact Or.inl (hquiet (quiet_int config scope))
  · exact Or.inl (hquiet (quiet_float config scope))
  · exact Or.inl (hquiet (quiet_roundedFloat config scope))
  · exact absurd rfl hname
  · exact Or.inl (hquiet (quiet_customFunction config scope))
  · refine Or.inl ⟨config.value?.map .aux, s.target, rfl, ?_⟩
    cases config with
    | value v => exact Or.inr ⟨rfl, v, rfl⟩
    | rules rules => exact Or.inl rfl
    | function hook => exact Or.inl rfl

/-- How the module for nested records ends in a result: it passes over a blank value, unless the
engine is strict, or its nested run ends in a result, which becomes its error if it does not pass.
-/
theorem objectValidator_eq_ok_iff {config : Configuration} {scope : Scope σ}
    {s t : Store (Option Value) σ} {out : Option Contribution} :
    objectValidator config scope s = .ok out t ↔
      ((!scope.strict && scope.value.isBlank) = true ∧ out = none ∧ t = s) ∨
      ((!scope.strict && scope.value.isBlank) = false ∧
        ∃ inner outcome u, nestedRules scope.field config = .ok inner ∧
          scope.validate inner false ⟨scope.value, s.caller⟩ = .ok outcome u ∧
          t = ⟨some u.target, u.caller⟩ ∧
          (outcome = .valid ∧ out = none ∨
            outcome ≠ .valid ∧ out = some (.errors [("objectValidator", .nested outcome)]))) := by
  unfold objectValidator
  constructor
  · intro h
    split at h
    · next hskip =>
      obtain ⟨rfl, rfl⟩ := Run.pure_eq_ok.1 h
      exact Or.inl ⟨hskip, rfl, rfl⟩
    · next hopens =>
      obtain ⟨inner, u, hinner, h⟩ := Run.bind_eq_ok.1 h
      obtain ⟨hread, rfl⟩ := Run.ofExcept_eq_ok.1 hinner
      obtain ⟨⟨outcome, v⟩, u, hbeside, h⟩ := Run.bind_eq_ok.1 h
      obtain ⟨after, hrun, rfl, rfl⟩ := Run.beside_eq_ok.1 hbeside
      obtain ⟨_, w, hwrite, h⟩ := Run.bind_eq_ok.1 h
      cases hwrite
      refine Or.inr ⟨Bool.eq_false_iff.2 hopens, inner, outcome, after, hread, hrun, ?_⟩
      cases outcome with
      | valid =>
        obtain ⟨rfl, rfl⟩ := Run.pure_eq_ok.1 h
        exact ⟨rfl, Or.inl ⟨rfl, rfl⟩⟩
      | fields reports =>
        obtain ⟨rfl, rfl⟩ := Run.pure_eq_ok.1 h
        exact ⟨rfl, Or.inr ⟨nofun, rfl⟩⟩
      | errors errors =>
        obtain ⟨rfl, rfl⟩ := Run.pure_eq_ok.1 h
        exact ⟨rfl, Or.inr ⟨nofun, rfl⟩⟩
  · rintro (⟨hskip, rfl, rfl⟩ | ⟨hopens, inner, outcome, u, hread, hrun, rfl, hout⟩)
    · rw [if_pos hskip]
      rfl
    · rw [if_neg (Bool.eq_false_iff.1 hopens)]
      refine Run.bind_eq_ok.2 ⟨inner, s, Run.ofExcept_eq_ok.2 ⟨hread, rfl⟩, ?_⟩
      refine Run.bind_eq_ok.2 ⟨(outcome, u.target), ⟨s.target, u.caller⟩, ?_, ?_⟩
      · exact Run.beside_eq_ok.2 ⟨u, hrun, rfl, rfl⟩
      · refine Run.bind_eq_ok.2 ⟨(), ⟨some u.target, u.caller⟩, rfl, ?_⟩
        cases outcome with
        | valid =>
          obtain ⟨-, rfl⟩ | ⟨hne, -⟩ := hout
          · rfl
          · exact absurd rfl hne
        | fields reports =>
          obtain ⟨hvalid, -⟩ | ⟨-, rfl⟩ := hout
          · cases hvalid
          · rfl
        | errors errors =>
          obtain ⟨hvalid, -⟩ | ⟨-, rfl⟩ := hout
          · cases hvalid
          · rfl

/-- The module for nested records does nothing, or makes a nested run. -/
theorem objectValidator_eq_ok {config : Configuration} {scope : Scope σ}
    {s t : Store (Option Value) σ} {out : Option Contribution}
    (h : objectValidator config scope s = .ok out t) :
    (out = none ∧ t = s) ∨
    ∃ inner outcome u, nestedRules scope.field config = .ok inner ∧
      scope.validate inner false ⟨scope.value, s.caller⟩ = .ok outcome u ∧
      t = ⟨some u.target, u.caller⟩ ∧
      (outcome = .valid ∧ out = none ∨
        outcome ≠ .valid ∧ out = some (.errors [("objectValidator", .nested outcome)])) :=
  (objectValidator_eq_ok_iff.1 h).imp And.right And.right

end Module

end Vetting
