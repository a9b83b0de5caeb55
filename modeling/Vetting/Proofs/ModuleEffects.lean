import Vetting.Proofs.RepeatedEvaluation
import Mathlib.Data.List.DropRight

/-!
# What modules make of a value

Of the built-in modules those that trim, hand on a title, put in a plain default value or coerce to
an integer or a float look at nothing but the value of their field (`Module.Plain`), and what each
of them leaves there is a function of that value (`Module.effect`). A pass of such modules reports
no errors and leaves what these functions make of the value, one after the other
(`Engine.runModules_effects`). If doing so again makes nothing else of it, the field is steady
(`Engine.steady_of_effects`).
-/

set_option autoImplicit false

namespace Vetting

/-- Trimmed text has no white space left to trim. -/
theorem Text.trimChars_trimChars (cs : List Char) :
    trimChars (trimChars cs) = trimChars cs := by
  have hfront : (trimChars cs).dropWhile isSpace = trimChars cs := by
    have hinitial : trimChars cs <+: cs.dropWhile isSpace :=
      List.rdropWhile_prefix isSpace (cs.dropWhile isSpace)
    have hdropped : (cs.dropWhile isSpace).dropWhile isSpace = cs.dropWhile isSpace :=
      List.dropWhile_idempotent isSpace cs
    rw [List.dropWhile_eq_self_iff] at hdropped ⊢
    intro hpos
    rw [hinitial.getElem hpos]
    exact hdropped (hpos.trans_le hinitial.length_le)
  have hback : (trimChars cs).rdropWhile isSpace = trimChars cs :=
    List.rdropWhile_idempotent isSpace (cs.dropWhile isSpace)
  rw [List.rdropWhile] at hback
  rw [trimChars, hfront, hback]

/-- Text is trimmed once and for all. -/
theorem Text.trim_trim (text : String) : trim (trim text) = trim text := by
  rw [trim, trim, String.toList_ofList, trimChars_trimChars]

/-- A value with the white space taken off its ends, if it is text. -/
def Value.trimmed : Value → Value
  | .string text => .string (Text.trim text)
  | v => v

/-- A value is trimmed once and for all. -/
theorem Value.trimmed_trimmed (v : Value) : v.trimmed.trimmed = v.trimmed := by
  cases v with
  | string text => exact congrArg Value.string (Text.trim_trim text)
  | _ => rfl

/-- A value, or a default value in the place of a blank one. -/
def Value.orDefault (v d : Value) : Value :=
  if v.isBlank then d else v

/-- A default value is put in once and for all. -/
theorem Value.orDefault_orDefault (v d : Value) : (v.orDefault d).orDefault d = v.orDefault d := by
  cases hblank : v.isBlank with
  | true => rw [orDefault, orDefault, hblank, if_pos rfl, ite_self]
  | false => simp only [orDefault, hblank, Bool.false_eq_true, if_false]

/-- A value, or what its text is coerced to if it has the int format. -/
def Value.asInteger (v : Value) : Value :=
  match Module.coercibleText? v with
  | some text => if Pattern.int.accepts text then (Module.intOfText? text).getD v else v
  | none => v

/-- A value, or what its text is coerced to if it has the float format. -/
def Value.asFloat (v : Value) : Value :=
  match Module.floatOfValue? v with
  | some x => .ofExtended x
  | none => v

namespace Module

/-- Modules, as they are configured, that look at nothing but the value of their field. -/
inductive Plain : String × Configuration → Prop
  | trimValue (config : Configuration) : Plain ("trimValue", config)
  | defaultValue (d : Value) : Plain ("defaultValue", .value d)
  | int (config : Configuration) : Plain ("int", config)
  | float (config : Configuration) : Plain ("float", config)
  | title (config : Configuration) : Plain ("title", config)

/-- A plain module begins no nested run and is given no rules for a default value. -/
theorem Plain.noNested {entry : String × Configuration} (h : Plain entry) :
    entry.1 ≠ "objectValidator" ∧ (entry.1 = "defaultValue" → ∀ rules, entry.2 ≠ .rules rules) := by
  cases h <;> simp

/-- What such a module makes of the value of its field. -/
def effect : String × Configuration → Value → Value
  | ("trimValue", config), v => if config.isEnabled then v.trimmed else v
  | ("defaultValue", .value d), v => v.orDefault d
  | ("int", config), v => if isPlainTrue config then v.asInteger else v
  | ("float", config), v => if isPlainTrue config then v.asFloat else v
  | _, v => v

/-- What such modules make of a value, one after the other. -/
def effects (configs : Fields Configuration) (v : Value) : Value :=
  configs.foldl (fun v entry => effect entry v) v

/-- Modules that come after others work on what those have made. -/
theorem effects_append (configs configs' : Fields Configuration) (v : Value) :
    effects (configs ++ configs') v = effects configs' (effects configs v) :=
  List.foldl_append

/-- Modules make nothing else of what they have made with a further module if they leave that alone,
and so does the further module. -/
theorem effects_concat_again {configs : Fields Configuration} {entry : String × Configuration}
    {v : Value}
    (hkept : effects configs (effect entry (effects configs v)) = effect entry (effects configs v))
    (hagain : effect entry (effect entry (effects configs v)) = effect entry (effects configs v)) :
    effects (configs ++ [entry]) (effects (configs ++ [entry]) v) =
      effects (configs ++ [entry]) v := by
  have hlast : ∀ w, effects (configs ++ [entry]) w = effect entry (effects configs w) :=
    fun w => effects_append configs [entry] w
  rw [hlast, hlast, hkept, hagain]

/-- Modules that trim or hand on a title are plain. -/
theorem plain_of_trims {entry : String × Configuration}
    (h : entry.1 = "trimValue" ∨ entry.1 = "title") : Plain entry := by
  obtain ⟨name, config⟩ := entry
  rcases h with rfl | rfl
  · exact .trimValue config
  · exact .title config

/-- Modules that trim or hand on a title trim the value, if one of them is enabled. -/
theorem effects_trims {configs : Fields Configuration}
    (hconfigs : ∀ entry ∈ configs, entry.1 = "trimValue" ∨ entry.1 = "title") (v : Value) :
    effects configs v =
      if configs.any (fun entry => entry.1 == "trimValue" && entry.2.isEnabled) then v.trimmed
      else v := by
  induction configs generalizing v with
  | nil => rfl
  | cons entry rest ih =>
    obtain ⟨name, config⟩ := entry
    have hrest := ih fun entry hentry => hconfigs entry (List.mem_cons_of_mem _ hentry)
    obtain rfl | rfl : name = "trimValue" ∨ name = "title" :=
      hconfigs (name, config) List.mem_cons_self
    · have hfirst : effects (("trimValue", config) :: rest) v =
          effects rest (if config.isEnabled then v.trimmed else v) := rfl
      rw [hfirst, hrest, List.any_cons, beq_self_eq_true, Bool.true_and]
      cases config.isEnabled with
      | true => simp [Value.trimmed_trimmed]
      | false => rfl
    · exact hrest v

/-- Modules that trim or hand on a title change a value once and for all. -/
theorem effects_trims_again {configs : Fields Configuration}
    (hconfigs : ∀ entry ∈ configs, entry.1 = "trimValue" ∨ entry.1 = "title") (v : Value) :
    effects configs (effects configs v) = effects configs v := by
  rw [effects_trims hconfigs, effects_trims hconfigs]
  split
  · exact Value.trimmed_trimmed v
  · rfl

/-- Nothing is trimmed off a value that is no text. -/
theorem effects_trims_of_ne_string {configs : Fields Configuration}
    (hconfigs : ∀ entry ∈ configs, entry.1 = "trimValue" ∨ entry.1 = "title") {v : Value}
    (hv : ∀ text, v ≠ .string text) : effects configs v = v := by
  have htrimmed : v.trimmed = v := by
    cases v with
    | string text => exact absurd rfl (hv text)
    | _ => rfl
  rw [effects_trims hconfigs, htrimmed, ite_self]

/-- Trimming puts text without white space at its ends into a field with text, and leaves any other
field, also one that is not there. -/
theorem trimValue_writes {σ : Type} (config : Configuration) (scope : Scope σ) (c : σ)
    {x : Option Value} (hvalue : scope.value = x.getD .null) :
    ∃ written, trimValue config scope ⟨none, c⟩ = .ok none ⟨written, c⟩ ∧
      written.or x = if config.isEnabled then x.map Value.trimmed else x := by
  unfold trimValue
  rw [hvalue]
  by_cases henabled : config.isEnabled
  · rw [if_pos henabled, if_pos henabled]
    cases x with
    | none => exact ⟨none, rfl, rfl⟩
    | some v =>
      cases v with
      | string text =>
        by_cases hsame : Text.trim text = text
        · exact ⟨none, by simp [hsame], by simp [Value.trimmed, hsame]⟩
        · refine ⟨some (.string (Text.trim text)), ?_, rfl⟩
          simp only [Option.getD_some, bne_iff_ne, ne_eq, hsame, not_false_eq_true, if_true]
          rfl
      | _ => exact ⟨none, rfl, rfl⟩
  · rw [if_neg henabled, if_neg henabled]
    exact ⟨none, rfl, rfl⟩

/-- A plain default value is put in the place of a blank or missing one. -/
theorem defaultValue_writes {σ : Type} (d : Value) (scope : Scope σ) (c : σ)
    {x : Option Value} (hvalue : scope.value = x.getD .null) :
    ∃ written, Module.defaultValue (.value d) scope ⟨none, c⟩ = .ok none ⟨written, c⟩ ∧
      written.or x = if (x.getD .null).isBlank then some d else x := by
  unfold Module.defaultValue
  rw [hvalue]
  by_cases hblank : (x.getD .null).isBlank
  · rw [if_pos hblank, if_pos hblank]
    exact ⟨some d, rfl, rfl⟩
  · rw [if_neg hblank, if_neg hblank]
    exact ⟨none, rfl, rfl⟩

/-- The module for trimming leaves in its field what was there, trimmed if it is enabled. -/
theorem trimValue_ends {σ : Type} (config : Configuration) (scope : Scope σ) (caller : σ) :
    ∃ written, trimValue config scope ⟨none, caller⟩ = .ok none ⟨written, caller⟩ ∧
      written.getD scope.value =
        if config.isEnabled then scope.value.trimmed else scope.value := by
  obtain ⟨written, hends, hwritten⟩ :=
    @trimValue_writes σ config scope caller (some scope.value) rfl
  refine ⟨written, hends, Option.some.inj ?_⟩
  rw [← Option.or_some, hwritten]
  split <;> rfl

/-- A default value in the configuration is put in the place of a blank value. -/
theorem defaultValue_ends_value {σ : Type} (d : Value) (scope : Scope σ) (caller : σ) :
    ∃ written, Module.defaultValue (.value d) scope ⟨none, caller⟩ = .ok none ⟨written, caller⟩ ∧
      written.getD scope.value = scope.value.orDefault d := by
  obtain ⟨written, hends, hwritten⟩ :=
    @defaultValue_writes σ d scope caller (some scope.value) rfl
  refine ⟨written, hends, Option.some.inj ?_⟩
  rw [← Option.or_some, hwritten, Option.getD_some, Value.orDefault]
  split <;> rfl

/-- The int module leaves in its field what was there, coerced if it is enabled. -/
theorem int_ends {σ : Type} (config : Configuration) (scope : Scope σ) (caller : σ) :
    ∃ written, Module.int config scope ⟨none, caller⟩ = .ok none ⟨written, caller⟩ ∧
      written.getD scope.value =
        if isPlainTrue config then scope.value.asInteger else scope.value := by
  unfold Module.int Value.asInteger
  split
  · cases htext : coercibleText? scope.value with
    | none => exact ⟨none, rfl, rfl⟩
    | some text =>
      cases haccepts : Pattern.int.accepts text with
      | false => exact ⟨none, by simp [haccepts], by simp [haccepts]⟩
      | true =>
        cases hinteger : intOfText? text with
        | none => exact ⟨none, by simp [haccepts, hinteger], by simp [haccepts, hinteger]⟩
        | some v => exact ⟨some v, by simp [haccepts, hinteger]; rfl, by simp [haccepts, hinteger]⟩
  · exact ⟨none, rfl, rfl⟩

/-- The float module leaves in its field what was there, coerced if it is enabled. -/
theorem float_ends {σ : Type} (config : Configuration) (scope : Scope σ) (caller : σ) :
    ∃ written, Module.float config scope ⟨none, caller⟩ = .ok none ⟨written, caller⟩ ∧
      written.getD scope.value =
        if isPlainTrue config then scope.value.asFloat else scope.value := by
  unfold Module.float Value.asFloat
  split
  · cases floatOfValue? scope.value with
    | none => exact ⟨none, rfl, rfl⟩
    | some x => exact ⟨some (.ofExtended x), rfl, rfl⟩
  · exact ⟨none, rfl, rfl⟩

/-- A plain module runs to the end, leaves its effect on what was there, and hands back at most data
for the report. -/
theorem Plain.ends {σ : Type} {name : String} {config : Configuration} (h : Plain (name, config))
    {module : Module σ} (hget : (KnownModules.builtin : KnownModules σ).get? name = some module)
    (scope : Scope σ) (caller : σ) :
    ∃ out written, module config scope ⟨none, caller⟩ = .ok out ⟨written, caller⟩ ∧
      written.getD scope.value = effect (name, config) scope.value ∧
      (out = none ∨ ∃ v, out = some (.aux v)) := by
  cases h with
  | trimValue =>
    cases hget
    obtain ⟨written, hends, hwritten⟩ := trimValue_ends config scope caller
    exact ⟨none, written, hends, hwritten, Or.inl rfl⟩
  | defaultValue d =>
    cases hget
    obtain ⟨written, hends, hwritten⟩ := defaultValue_ends_value d scope caller
    exact ⟨none, written, hends, hwritten, Or.inl rfl⟩
  | int =>
    cases hget
    obtain ⟨written, hends, hwritten⟩ := int_ends config scope caller
    exact ⟨none, written, hends, hwritten, Or.inl rfl⟩
  | float =>
    cases hget
    obtain ⟨written, hends, hwritten⟩ := float_ends config scope caller
    exact ⟨none, written, hends, hwritten, Or.inl rfl⟩
  | title =>
    cases hget
    refine ⟨config.value?.map .aux, none, rfl, rfl, ?_⟩
    cases config with
    | value v => exact Or.inr ⟨v, rfl⟩
    | rules rules => exact Or.inl rfl
    | function hook => exact Or.inl rfl

end Module

namespace Engine

variable {σ : Type} {engine : Engine σ} {nested : NestedValidation σ} {field : String}

/-- A pass of plain modules runs to the end, reports no errors and leaves what they make of the
value of the field. -/
theorem runModules_effects (hmodules : engine.modules = KnownModules.builtin)
    {form : CanonicalForm} {configs : Fields Configuration}
    (hplain : ∀ entry ∈ configs, Module.Plain entry) (results : Contributions)
    (s : Store Record σ) :
    ∃ after t, engine.runModules nested field form configs results s = .ok after t ∧
      after.errors = results.errors ∧
      t.target.read field = Module.effects configs (s.target.read field) := by
  induction configs generalizing results s with
  | nil => exact ⟨results, s, rfl, rfl, rfl⟩
  | cons entry rest ih =>
    obtain ⟨name, config⟩ := entry
    have hfirst : Module.Plain (name, config) := hplain _ List.mem_cons_self
    have hrest := fun entry hentry => hplain entry (List.mem_cons_of_mem _ hentry)
    obtain ⟨module, hget⟩ : ∃ module,
        (KnownModules.builtin : KnownModules σ).get? name = some module := by
      cases hfirst <;> exact ⟨_, rfl⟩
    obtain ⟨out, written, hends, hwritten, hout⟩ := hfirst.ends hget
      ⟨field, form, engine.settings.strict, s.target, engine.announced nested⟩ s.caller
    have hrun : engine.runModule nested field form config module s =
        .ok out ⟨s.target.putIf field written, s.caller⟩ :=
      runModule_eq_ok_iff.2 ⟨_, hends, rfl⟩
    obtain ⟨after, t, hafter, herrors, hvalue⟩ := ih hrest (results.add name out)
      ⟨s.target.putIf field written, s.caller⟩
    rw [runModules, hmodules, hget]
    refine ⟨after, t, Run.bind_eq_ok.2 ⟨out, _, hrun, hafter⟩, ?_, ?_⟩
    · rw [herrors]
      rcases hout with rfl | ⟨v, rfl⟩ <;> rfl
    · rw [hvalue, Fields.read_putIf]
      exact congrArg (Module.effects rest) hwritten

/-- A pass of the modules of a field, if they are plain, leaves what they make of its value, and
reports no errors. -/
theorem Passes.eq_effects (hmodules : engine.modules = KnownModules.builtin) {rule : Rule}
    (hplain : ∀ entry ∈ rule.canonical.modules, Module.Plain entry) {v w : Value} {clean : Bool}
    (h : engine.Passes nested field rule v w clean) :
    w = Module.effects rule.canonical.modules v ∧ clean = true := by
  obtain ⟨s, results, t, hrun, rfl, rfl, rfl⟩ := h
  obtain ⟨after, u, hends, herrors, hvalue⟩ :=
    @runModules_effects σ engine nested field hmodules _ _ hplain .empty s
  rw [hrun] at hends
  cases hends
  exact ⟨hvalue, by rw [herrors]; rfl⟩

/-- A field with plain modules is steady if they make nothing else of what they have made. -/
theorem steady_of_effects (hmodules : engine.modules = KnownModules.builtin) {rule : Rule}
    (hplain : ∀ entry ∈ rule.canonical.modules, Module.Plain entry)
    (hagain : ∀ v, Module.effects rule.canonical.modules
      (Module.effects rule.canonical.modules v) = Module.effects rule.canonical.modules v) :
    engine.Steady nested field rule := by
  intro v v' v'' clean clean' hfirst hsecond
  obtain ⟨rfl, rfl⟩ := hfirst.eq_effects hmodules hplain
  obtain ⟨rfl, rfl⟩ := hsecond.eq_effects hmodules hplain
  exact ⟨rfl, fun _ => hagain v⟩

/-- A field whose modules only trim it or title it is steady. -/
theorem steady_of_trims (hmodules : engine.modules = KnownModules.builtin) {rule : Rule}
    (hconfigs : ∀ entry ∈ rule.canonical.modules, entry.1 = "trimValue" ∨ entry.1 = "title") :
    engine.Steady nested field rule :=
  steady_of_effects hmodules (fun entry hentry => Module.plain_of_trims (hconfigs entry hentry))
    (Module.effects_trims_again hconfigs)

end Engine

end Vetting
