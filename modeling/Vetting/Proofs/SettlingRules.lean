import Vetting.Proofs.RepeatedCoercion
import Vetting.Proofs.Revalidation

/-!
# Rules that settle

Rules settle on a value if at every depth one pass of its modules brings each field to rest. For a
field without nested records this says that a second pass leaves what the first one has left. For a
field with nested records it may be shown from the stability of the nested runs that the pass
begins, since the rules of these have to settle in their turn; so nothing is asked about a nested
run but what its own fields do. Rules from data that settle on a value are stable on it
(`validate_stable`).

Where modules look at nothing but the value of their field, it settles exactly when they leave alone
what they have made of the value (`settlesOn_iff_of_plain`). Fields that are trimmed and then
coerced to a float settle on every value (`settlesOn_float`), and fields that are trimmed and then
coerced to an integer on every value but the texts of some integers next to the least one of 64 bits
(`settlesOn_int_iff`), with a default value after that or without. Rules of such fields and of
fields whose only module validates a nested record by rules of this kind settle (`Tidy.settles`). A
default value that is put in before the white space is trimmed away does not settle, and the record
changes when it is validated again (`validate_stable_unsettled`).
-/

set_option autoImplicit false

namespace Vetting

/-- A value that counts as true is not blank. -/
theorem Value.isBlank_of_truthy {v : Value} (h : v.isTruthy = true) : v.isBlank = false := by
  cases v with
  | null => cases h
  | string text => simpa [Value.isTruthy, Value.isBlank] using h
  | _ => rfl

namespace Engine

variable {σ : Type} {engine : Engine σ}

/-- A pass of the modules of a field over a value begins a nested run on what the modules before the
one for nested records have made of it. -/
def Opens (engine : Engine σ) (field : String) (rule : Rule) (v : Value) (inner : Rules)
    (x : Value) : Prop :=
  ∃ before config after s results t,
    rule.canonical.modules = before ++ ("objectValidator", config) :: after ∧
    engine.runModules engine.validate field rule.canonical before .empty s = .ok results t ∧
    s.target.read field = v ∧ t.target.read field = x ∧
    (!engine.settings.strict && x.isBlank) = false ∧
    Module.nestedRules field config = .ok inner

/-- At every depth one pass brings the modules of each field to rest, given for a field with nested
records that the nested runs begun in that pass are stable. -/
inductive Settles (engine : Engine σ) : Rules → Value → Prop
  | intro {rules : Rules} {v : Value} :
      (∀ field rule inner x, (field, rule) ∈ rules.members →
        engine.Opens field rule ((rules.recordOf v).read field) inner x → Settles engine inner x) →
      (∀ field rule, (field, rule) ∈ rules.members →
        (∀ inner x, engine.Opens field rule ((rules.recordOf v).read field) inner x →
          engine.StableOn inner x) →
        engine.SettlesOn field rule ((rules.recordOf v).read field)) →
      Settles engine rules v

/-- The induction is on the depth at which the rules settle. -/
theorem Settles.stableOn (hmodules : engine.modules = KnownModules.builtin) {rules : Rules}
    {v : Value} (h : engine.Settles rules v) (hdata : rules.FromData) :
    engine.StableOn rules v := by
  induction h with
  | intro _ hsettles ih =>
    refine stableOn_of_settlesOn hmodules hdata fun field rule hrule => ?_
    refine hsettles field rule hrule fun inner x hopens => ih field rule inner x hrule hopens ?_
    obtain ⟨before, config, after, _, _, _, hsplit, -, -, -, -, hinner⟩ := hopens
    have hconfig : ("objectValidator", config) ∈ rule.canonical.modules := by
      rw [hsplit]
      exact List.mem_append_right _ List.mem_cons_self
    exact hdata.nested hrule hconfig hinner

/-! ## Fields that settle -/

/-- Modules of which one pass brings a value to rest: they trim and hand on titles, may coerce to an
integer or a float after that, if the integer is not rounded to the least one of 64 bits, and may
put in a default value last, which they leave alone themselves. -/
inductive Neat : Fields Configuration → Value → Prop
  | trims {configs : Fields Configuration} {v : Value} :
      (∀ entry ∈ configs, entry.1 = "trimValue" ∨ entry.1 = "title") → Neat configs v
  | int {configs : Fields Configuration} {config : Configuration} {v : Value} :
      (∀ entry ∈ configs, entry.1 = "trimValue" ∨ entry.1 = "title") →
      ¬ (config = .value (.bool true) ∧ (Module.effects configs v).SpellsRoundedIntoRange) →
        Neat (configs ++ [("int", config)]) v
  | float {configs : Fields Configuration} {config : Configuration} {v : Value} :
      (∀ entry ∈ configs, entry.1 = "trimValue" ∨ entry.1 = "title") →
        Neat (configs ++ [("float", config)]) v
  | default {configs : Fields Configuration} {d v : Value} :
      Neat configs v → Module.effects configs d = d →
        Neat (configs ++ [("defaultValue", .value d)]) v

/-- Neat modules are plain. -/
theorem Neat.plain {configs : Fields Configuration} {v : Value} (h : Neat configs v) :
    ∀ entry ∈ configs, Module.Plain entry := by
  have hconcat : ∀ {configs : Fields Configuration} {entry : String × Configuration},
      (∀ entry ∈ configs, Module.Plain entry) → Module.Plain entry →
        ∀ other ∈ configs ++ [entry], Module.Plain other := by
    intro configs entry hconfigs hentry other hother
    rcases List.mem_append.1 hother with hbefore | hlast
    · exact hconfigs other hbefore
    · rw [List.mem_singleton.1 hlast]
      exact hentry
  induction h with
  | trims htrims => exact fun entry hentry => Module.plain_of_trims (htrims entry hentry)
  | int htrims _ =>
    exact hconcat (fun entry hentry => Module.plain_of_trims (htrims entry hentry)) (.int _)
  | float htrims =>
    exact hconcat (fun entry hentry => Module.plain_of_trims (htrims entry hentry)) (.float _)
  | default _ _ ih => exact hconcat ih (.defaultValue _)

/-- There is no module for nested records among neat modules. -/
theorem Neat.not_mem {configs : Fields Configuration} {v : Value} (h : Neat configs v)
    {config : Configuration} : ("objectValidator", config) ∉ configs :=
  fun hconfig => (h.plain _ hconfig).noNested.1 rfl

/-- Coercing to an integer after trimming leaves nothing to do exactly when the integer is not
rounded to the least one of 64 bits. -/
theorem effects_int_again_iff {configs : Fields Configuration} {config : Configuration} {v : Value}
    (htrims : ∀ entry ∈ configs, entry.1 = "trimValue" ∨ entry.1 = "title") :
    Module.effects (configs ++ [("int", config)])
        (Module.effects (configs ++ [("int", config)]) v) =
      Module.effects (configs ++ [("int", config)]) v ↔
      ¬ (config = .value (.bool true) ∧ (Module.effects configs v).SpellsRoundedIntoRange) := by
  have hlast : ∀ w, Module.effects (configs ++ [("int", config)]) w =
      if Module.isPlainTrue config then (Module.effects configs w).asInteger
      else Module.effects configs w :=
    fun w => Module.effects_append configs [("int", config)] w
  rw [hlast, hlast]
  by_cases hon : Module.isPlainTrue config = true
  · have hkept : Module.effects configs (Module.effects configs v).asInteger =
        (Module.effects configs v).asInteger := by
      rcases (Module.effects configs v).asInteger_cases with hsame | hother
      · rw [hsame, Module.effects_trims_again htrims]
      · exact Module.effects_trims_of_ne_string htrims hother
    rw [if_pos hon, if_pos hon, hkept, Value.asInteger_again_iff, Module.isPlainTrue_iff.1 hon]
    simp only [true_and]
  · rw [if_neg hon, if_neg hon]
    refine iff_of_true (Module.effects_trims_again htrims v) ?_
    exact fun hrounded => hon (Module.isPlainTrue_iff.2 hrounded.1)

/-- What neat modules have made of a value they leave alone. -/
theorem Neat.effects_again {configs : Fields Configuration} {v : Value} (h : Neat configs v) :
    Module.effects configs (Module.effects configs v) = Module.effects configs v := by
  induction h with
  | trims htrims => exact Module.effects_trims_again htrims _
  | int htrims hrounded => exact (effects_int_again_iff htrims).2 hrounded
  | @float configs config v htrims =>
    have hstep : ∀ w, Module.effect ("float", config) w =
        if Module.isPlainTrue config then w.asFloat else w := fun _ => rfl
    refine Module.effects_concat_again ?_ ?_
    · rw [hstep]
      split
      · rcases (Module.effects configs v).asFloat_cases with hsame | hother
        · rw [hsame, Module.effects_trims_again htrims]
        · exact Module.effects_trims_of_ne_string htrims hother
      · exact Module.effects_trims_again htrims v
    · rw [hstep, hstep]
      split
      · exact Value.asFloat_asFloat _
      · rfl
  | @default configs d v _ hdefault ih =>
    have hstep : ∀ w, Module.effect ("defaultValue", .value d) w = w.orDefault d := fun _ => rfl
    refine Module.effects_concat_again ?_ ?_
    · rw [hstep, Value.orDefault]
      split
      · exact hdefault
      · exact ih
    · rw [hstep, hstep, Value.orDefault_orDefault]

section Fields

variable (hmodules : engine.modules = KnownModules.builtin) {field : String} {rule : Rule}

include hmodules

/-- Modules that begin no nested run end in a result and report no errors, unless they are given
rules for a default value. -/
theorem runModules_ends {nested : NestedValidation σ} {form : CanonicalForm}
    {configs : Fields Configuration}
    (hconfigs : ∀ entry ∈ configs, entry.1 ≠ "objectValidator" ∧
      (entry.1 = "defaultValue" → ∀ rules, entry.2 ≠ .rules rules))
    (results : Contributions) (s : Store Record σ) :
    ∃ after t, engine.runModules nested field form configs results s = .ok after t ∧
      after.errors = results.errors := by
  induction configs generalizing results s with
  | nil => exact ⟨results, s, rfl, rfl⟩
  | cons entry rest ih =>
    obtain ⟨name, config⟩ := entry
    have hrest := fun entry hentry => hconfigs entry (List.mem_cons_of_mem _ hentry)
    obtain ⟨hname, hrules⟩ := hconfigs (name, config) List.mem_cons_self
    rw [runModules, hmodules]
    cases hget : (KnownModules.builtin : KnownModules σ).get? name with
    | none => exact ih hrest results s
    | some module =>
      rcases Module.builtin_ends (KnownModules.mem_of_builtin_get? hget) hname config
          ⟨field, form, engine.settings.strict, s.target, engine.announced nested⟩
          ⟨none, s.caller⟩ with ⟨out, written, hends, hout⟩ | ⟨hdefault, ⟨rules, hconfig⟩, -⟩
      · have hrun : engine.runModule nested field form config module s =
            .ok out ⟨s.target.putIf field written, s.caller⟩ :=
          runModule_eq_ok_iff.2 ⟨_, hends, rfl⟩
        obtain ⟨after, t, hafter, herrors⟩ := ih hrest (results.add name out)
          ⟨s.target.putIf field written, s.caller⟩
        refine ⟨after, t, Run.bind_eq_ok.2 ⟨out, _, hrun, hafter⟩, ?_⟩
        rw [herrors]
        rcases hout with rfl | ⟨-, v, rfl⟩
        · rfl
        · rfl
      · exact absurd hconfig (hrules hdefault rules)

/-- A field without nested records settles on a value if a second pass leaves what the first has
left. -/
theorem settlesOn_of_noNested
    (hconfigs : ∀ entry ∈ rule.canonical.modules, entry.1 ≠ "objectValidator" ∧
      (entry.1 = "defaultValue" → ∀ rules, entry.2 ≠ .rules rules)) {v : Value}
    (h : ∀ v' w, engine.Passes engine.validate field rule v v' true →
      engine.Passes engine.validate field rule v' w true → w = v') :
    engine.SettlesOn field rule v := by
  constructor
  · intro v' hfirst
    obtain ⟨_, _, y, -, -, hread, -⟩ := id hfirst
    -- There is a second pass: the modules end in a result on every record.
    obtain ⟨results, t, hrun, herrors⟩ := runModules_ends hmodules hconfigs .empty y
    have hsecond : engine.Passes engine.validate field rule v' (t.target.read field) true :=
      ⟨y, results, t, hrun, hread, rfl, List.isEmpty_iff.2 herrors⟩
    have hsame := h v' _ hfirst hsecond
    rwa [hsame] at hsecond
  · -- No pass of such modules reports errors.
    intro v' w w' clean hfirst
    obtain ⟨x, results, y, hrun, -, -, hclean⟩ := hfirst
    obtain ⟨results', t, hrun', herrors⟩ := runModules_ends hmodules hconfigs .empty x
    rw [hrun] at hrun'
    cases hrun'
    rw [herrors] at hclean
    cases hclean

/-- A field with plain modules settles on a value if they make nothing else of what they have made
of it. -/
theorem settlesOn_of_effects (hplain : ∀ entry ∈ rule.canonical.modules, Module.Plain entry)
    {v : Value} (hagain : Module.effects rule.canonical.modules
      (Module.effects rule.canonical.modules v) = Module.effects rule.canonical.modules v) :
    engine.SettlesOn field rule v := by
  refine settlesOn_of_noNested hmodules (fun entry hentry => (hplain entry hentry).noNested)
    fun v' w hfirst hsecond => ?_
  rw [(hsecond.eq_effects hmodules hplain).1, (hfirst.eq_effects hmodules hplain).1, hagain]

/-- A field with plain modules settles on a value exactly when they make nothing else of what they
have made of it. -/
theorem settlesOn_iff_of_plain [hcaller : Nonempty σ]
    (hplain : ∀ entry ∈ rule.canonical.modules, Module.Plain entry) {v : Value} :
    engine.SettlesOn field rule v ↔ Module.effects rule.canonical.modules
      (Module.effects rule.canonical.modules v) = Module.effects rule.canonical.modules v := by
  refine ⟨fun hsettles => ?_, settlesOn_of_effects hmodules hplain⟩
  obtain ⟨c⟩ := hcaller
  have hread : Fields.read [(field, v)] field = v := by
    rw [Fields.read, Fields.get?_cons, if_pos rfl, Option.getD_some]
  obtain ⟨results, t, hrun, herrors, hvalue⟩ := runModules_effects hmodules hplain .empty
    (⟨[(field, v)], c⟩ : Store Record σ)
  rw [hread] at hvalue
  have hfirst : engine.Passes engine.validate field rule v
      (Module.effects rule.canonical.modules v) true :=
    ⟨_, results, t, hrun, hread, hvalue, List.isEmpty_iff.2 herrors⟩
  exact ((hsettles.rests _ hfirst).eq_effects hmodules hplain).1.symm

/-- A field whose modules are neat on a value settles on it. -/
theorem settlesOn_of_neat {v : Value} (h : Neat rule.canonical.modules v) :
    engine.SettlesOn field rule v :=
  settlesOn_of_effects hmodules h.plain h.effects_again

/-- A field that is coerced to an integer, perhaps after trimming, settles on a value exactly when
the text of the value is not of an integer that is too small for 64 bits and is rounded to the least
one that fits. -/
theorem settlesOn_int_iff [Nonempty σ] {configs : Fields Configuration} {config : Configuration}
    (htrims : ∀ entry ∈ configs, entry.1 = "trimValue" ∨ entry.1 = "title")
    (hmembers : rule.canonical.modules = configs ++ [("int", config)]) {v : Value} :
    engine.SettlesOn field rule v ↔
      ¬ (config = .value (.bool true) ∧ (Module.effects configs v).SpellsRoundedIntoRange) := by
  have hplain : ∀ entry ∈ rule.canonical.modules, Module.Plain entry := by
    intro entry hentry
    rw [hmembers] at hentry
    rcases List.mem_append.1 hentry with hbefore | hlast
    · exact Module.plain_of_trims (htrims entry hbefore)
    · rw [List.mem_singleton.1 hlast]
      exact .int config
  rw [settlesOn_iff_of_plain hmodules hplain, hmembers, effects_int_again_iff htrims]

/-- A field that is coerced to a float, perhaps after trimming, settles on every value. -/
theorem settlesOn_float {configs : Fields Configuration} {config : Configuration}
    (htrims : ∀ entry ∈ configs, entry.1 = "trimValue" ∨ entry.1 = "title")
    (hmembers : rule.canonical.modules = configs ++ [("float", config)]) (v : Value) :
    engine.SettlesOn field rule v := by
  refine settlesOn_of_neat hmodules ?_
  rw [hmembers]
  exact .float htrims

/-- Field rules have something to validate when a run is over, as they had when it began. -/
theorem truthy_of_leaves {fields : Fields Rule} {v w : Value}
    (hleaves : engine.Leaves (.fields fields) v w) : w.isTruthy = true := by
  obtain ⟨c, outcome, t, hrun, rfl⟩ := hleaves
  rw [validate_eq_validateBy hmodules] at hrun
  obtain ⟨htruthy, -, u, -, rfl, -⟩ := validateFields_eq_ok hrun
  cases hv : v with
  | object members => rfl
  | _ =>
    rw [hv] at htruthy
    exact htruthy

section Nested

variable {config : Configuration} {inner : Rules}
  (honly : rule.canonical.modules = [("objectValidator", config)])
  (hinner : Module.nestedRules field config = .ok inner)

include honly hinner

/-- A pass of the module for nested records is over at once, or is a nested run. -/
theorem Passes.nested {v v' : Value} {clean : Bool}
    (h : engine.Passes engine.validate field rule v v' clean) :
    ((!engine.settings.strict && v.isBlank) = true ∧ v' = v ∧ clean = true) ∨
    ((!engine.settings.strict && v.isBlank) = false ∧
      ∃ c outcome t, engine.validate inner false ⟨v, c⟩ = .ok outcome t ∧ t.target = v' ∧
        (clean = true ↔ outcome = .valid)) := by
  obtain ⟨s, results, t, hrun, rfl, rfl, rfl⟩ := h
  have hget : (KnownModules.builtin : KnownModules σ).get? "objectValidator" =
      some Module.objectValidator := rfl
  rw [honly, runModules, hmodules, hget] at hrun
  obtain ⟨out, u, hstep, hrun⟩ := Run.bind_eq_ok.1 hrun
  obtain ⟨rfl, rfl⟩ := Run.pure_eq_ok.1 hrun
  obtain ⟨w, hmodule, rfl⟩ := runModule_eq_ok_iff.1 hstep
  rcases Module.objectValidator_eq_ok_iff.1 hmodule with
    ⟨hskip, rfl, rfl⟩ | ⟨hopens, rules, outcome, x, hread, hannounced, rfl, hout⟩
  · exact Or.inl ⟨hskip, rfl, rfl⟩
  · rw [hinner] at hread
    cases hread
    obtain ⟨y, hvalidate, rfl⟩ := announced_eq_ok.1 hannounced
    refine Or.inr ⟨hopens, _, outcome, y, hvalidate, ?_, ?_⟩
    · show y.target = Fields.read (Fields.putIf s.target field (some y.target)) field
      rw [Fields.read_putIf, Option.getD_some]
    · rcases hout with ⟨hvalid, rfl⟩ | ⟨hne, rfl⟩
      · exact iff_of_true rfl hvalid
      · exact iff_of_false Bool.false_ne_true hne

/-- A value that the rules for the nested record let pass and leave as it is, the field does too. -/
theorem passes_of_nested {v : Value} (c : σ)
    (h : (!engine.settings.strict && v.isBlank) = false → engine.Accepts inner v) :
    engine.Passes engine.validate field rule v v true := by
  have hvalue : Fields.read [(field, v)] field = v := by
    rw [Fields.read, Fields.get?_cons, if_pos rfl, Option.getD_some]
  have hmodule : ∃ w, Module.objectValidator config
      ⟨field, rule.canonical, engine.settings.strict, [(field, v)],
        engine.announced engine.validate⟩ ⟨none, c⟩ = .ok none w ∧
      w.target.getD v = v := by
    cases hskip : !engine.settings.strict && v.isBlank with
    | true =>
      refine ⟨_, Module.objectValidator_eq_ok_iff.2 (Or.inl ⟨?_, rfl, rfl⟩), rfl⟩
      rw [Scope.value, hvalue]
      exact hskip
    | false =>
      obtain ⟨d, hrun⟩ := h hskip (engine.observe (.opened inner v) c)
      have hannounced : engine.announced engine.validate inner false ⟨v, c⟩ =
          .ok .valid ⟨v, engine.observe .closed d⟩ :=
        announced_eq_ok.2 ⟨_, hrun, rfl⟩
      refine ⟨⟨some v, engine.observe .closed d⟩, Module.objectValidator_eq_ok_iff.2 (Or.inr
        ⟨?_, inner, .valid, ⟨v, engine.observe .closed d⟩, hinner, ?_, rfl, Or.inl ⟨rfl, rfl⟩⟩),
        rfl⟩
      · rw [Scope.value, hvalue]
        exact hskip
      · rw [Scope.value, hvalue]
        exact hannounced
  obtain ⟨w, hmodule, hleft⟩ := hmodule
  have hget : (KnownModules.builtin : KnownModules σ).get? "objectValidator" =
      some Module.objectValidator := rfl
  refine ⟨⟨[(field, v)], c⟩, .empty, ⟨Fields.putIf [(field, v)] field w.target, w.caller⟩, ?_,
    hvalue, ?_, rfl⟩
  · rw [honly, runModules, hmodules, hget]
    exact Run.bind_eq_ok.2 ⟨none, _, runModule_eq_ok_iff.2 ⟨w, hmodule, rfl⟩, rfl⟩
  · rw [Fields.read_putIf, hvalue, hleft]

/-- As long as the field holds something that is not blank, each pass is a nested run. -/
theorem leaves_of_becomes {fields : Fields Rule} (hfields : inner = .fields fields) {v w : Value}
    (htruthy : v.isTruthy = true) (hbecomes : engine.Becomes engine.validate field rule v w) :
    Relation.ReflTransGen (engine.Leaves inner) v w ∧ w.isTruthy = true := by
  induction hbecomes with
  | refl => exact ⟨.refl, htruthy⟩
  | tail _ hstep ih =>
    obtain ⟨clean, hpass⟩ := hstep
    obtain ⟨hbefore, hstill⟩ := ih
    rcases hpass.nested hmodules honly hinner with
      ⟨hskip, -, -⟩ | ⟨-, c, outcome, t, hrun, rfl, -⟩
    · rw [Value.isBlank_of_truthy hstill, Bool.and_false] at hskip
      cases hskip
    · have hleaves : engine.Leaves inner _ t.target := ⟨c, outcome, t, hrun, rfl⟩
      refine ⟨hbefore.tail hleaves, ?_⟩
      rw [hfields] at hleaves
      exact truthy_of_leaves hmodules hleaves

/-- A field whose only module validates a nested record settles on a value if the field rules for
the nested record are stable on that value. -/
theorem settlesOn_of_nested {fields : Fields Rule} (hfields : inner = .fields fields) {v : Value}
    (hstable : ∀ inner x, engine.Opens field rule v inner x → engine.StableOn inner x) :
    engine.SettlesOn field rule v := by
  have hopened : ∀ s : Store Record σ, s.target.read field = v →
      (!engine.settings.strict && v.isBlank) = false → engine.StableOn inner v := by
    intro s hread hopens
    exact hstable inner v ⟨[], config, [], s, .empty, s, honly, rfl, hread, hread, hopens, hinner⟩
  constructor
  · intro v' hfirst
    obtain ⟨s, -, -, -, hread, -, -⟩ := id hfirst
    rcases hfirst.nested hmodules honly hinner with
      ⟨-, rfl, -⟩ | ⟨hopens, c, outcome, t, hrun, rfl, hclean⟩
    · exact hfirst
    · rw [hclean.1 rfl] at hrun
      exact passes_of_nested hmodules honly hinner s.caller
        fun _ => (hopened s hread hopens).passes hrun
  · intro v' w w' clean hfirst hbecomes hlast
    obtain ⟨s, -, -, -, hread, -, -⟩ := id hfirst
    rcases hfirst.nested hmodules honly hinner with
      ⟨-, -, hclean⟩ | ⟨hopens, c, outcome, t, hrun, rfl, hclean⟩
    · cases hclean
    · -- What the field holds is never blank from here on, so that each later pass is a nested run.
      have hfails : outcome ≠ .valid := fun hvalid => nomatch hclean.2 hvalid
      have htruthy : t.target.isTruthy = true := by
        rw [hfields] at hrun
        exact truthy_of_leaves hmodules ⟨c, outcome, t, hrun, rfl⟩
      obtain ⟨hleaves, hstill⟩ := leaves_of_becomes hmodules honly hinner hfields htruthy hbecomes
      rcases hlast.nested hmodules honly hinner with
        ⟨hskip, -, -⟩ | ⟨-, c', outcome', t', hrun', -, hclean'⟩
      · rw [Value.isBlank_of_truthy hstill, Bool.and_false] at hskip
        cases hskip
      · have hfails' : outcome' ≠ .valid :=
          (hopened s hread hopens).fails hrun hfails hleaves hrun'
        exact Bool.eq_false_iff.2 fun htrue => hfails' (hclean'.1 htrue)

end Nested

end Fields

/-- Rules whose fields, at every depth, have neat modules for what the value holds there, or only
hold a nested record that has field rules. -/
inductive Tidy : Rules → Value → Prop
  | intro {rules : Rules} {v : Value} :
      (∀ field rule, (field, rule) ∈ rules.members →
        Neat rule.canonical.modules ((rules.recordOf v).read field) ∨
          ∃ config fields, rule.canonical.modules = [("objectValidator", config)] ∧
            Module.nestedRules field config = .ok (.fields fields)) →
      (∀ field rule config inner, (field, rule) ∈ rules.members →
        rule.canonical.modules = [("objectValidator", config)] →
          Module.nestedRules field config = .ok inner →
            Tidy inner ((rules.recordOf v).read field)) →
      Tidy rules v

/-- Rules are tidy if the modules of each field are neat. -/
theorem Tidy.of_neat {rules : Rules} {v : Value}
    (h : ∀ field rule, (field, rule) ∈ rules.members →
      Neat rule.canonical.modules ((rules.recordOf v).read field)) : Tidy rules v := by
  refine .intro (fun field rule hrule => Or.inl (h field rule hrule))
    fun field rule config _ hrule honly _ => ?_
  have hconfig : ("objectValidator", config) ∈ rule.canonical.modules := by
    rw [honly]
    exact List.mem_singleton_self _
  exact absurd hconfig (h field rule hrule).not_mem

/-- A field whose only module validates a nested record begins nested runs on its own value. -/
theorem Opens.of_only {field : String} {rule : Rule} {config : Configuration} {inner : Rules}
    {v x : Value} (honly : rule.canonical.modules = [("objectValidator", config)])
    (h : engine.Opens field rule v inner x) :
    x = v ∧ Module.nestedRules field config = .ok inner := by
  obtain ⟨before, config', after, s, results, t, hsplit, hrun, hread, hleft, -, hinner⟩ := h
  have hnone : before = [] ∧ config' = config := by
    rw [honly] at hsplit
    cases before with
    | nil =>
      cases hsplit
      exact ⟨rfl, rfl⟩
    | cons entry rest =>
      have hlength := congrArg List.length hsplit
      simp at hlength
  obtain ⟨rfl, rfl⟩ := hnone
  obtain ⟨rfl, rfl⟩ := Run.pure_eq_ok.1 hrun
  exact ⟨hleft.symm.trans hread, hinner⟩

/-- Rules settle on a value for which they are tidy. -/
theorem Tidy.settles (hmodules : engine.modules = KnownModules.builtin) {rules : Rules} {v : Value}
    (h : Tidy rules v) : engine.Settles rules v := by
  induction h with
  | intro hfields _ ih =>
    refine .intro (fun field rule inner x hrule hopens => ?_) fun field rule hrule hstable => ?_
    · rcases hfields field rule hrule with hneat | ⟨config, fields, honly, -⟩
      · obtain ⟨before, config, after, _, _, _, hsplit, -, -, -, -, -⟩ := hopens
        have hconfig : ("objectValidator", config) ∈ rule.canonical.modules := by
          rw [hsplit]
          exact List.mem_append_right _ List.mem_cons_self
        exact absurd hconfig hneat.not_mem
      · obtain ⟨rfl, hinner⟩ := hopens.of_only honly
        exact ih field rule config inner hrule honly hinner
    · rcases hfields field rule hrule with hneat | ⟨config, fields, honly, hinner⟩
      · exact settlesOn_of_neat hmodules hneat
      · exact settlesOn_of_nested hmodules honly hinner rfl hstable

/-- When a value has passed by rules from data, what is left of it passes again and stays as it is
if the rules settle on the value. Where no field depends on another, it does so exactly when one
more pass of the modules of each field is without errors and leaves the field as it is. -/
theorem validate_stable (hmodules : engine.modules = KnownModules.builtin) {data : Value}
    (hnames : data.distinctNames = true) {rules : Rules} (hread : Rules.ofValue data = .ok rules)
    {v : Value} {c : σ} {after : Store Value σ}
    (hrun : engine.validate rules false ⟨v, c⟩ = .ok .valid after) :
    (engine.Settles rules v → engine.Accepts rules after.target) ∧
    ((∀ field rule, (field, rule) ∈ rules.members → rule.canonical.dependencies = []) →
      rules.Carry v →
        (engine.Accepts rules after.target ↔ ∀ field rule, (field, rule) ∈ rules.members →
          engine.Passes engine.validate field rule ((rules.recordOf after.target).read field)
            ((rules.recordOf after.target).read field) true)) := by
  have hdata : rules.FromData := ⟨data, hnames, hread⟩
  refine ⟨fun hsettles => ?_, fun hindependent hcarry => ?_⟩
  · exact (hsettles.stableOn hmodules hdata).passes hrun
  · exact accepts_iff_of_independent hmodules hdata hindependent hcarry hrun

/-- Data of rules for a person: a name, which is trimmed, and a home with a city, which is trimmed
and then gets a default value. -/
def personData : Value :=
  .object
    [("name", .object [("validators", .array [.string "required"]), ("trimValue", .bool true)]),
      ("home", .object [("validators", .array []), ("objectValidator", .object
        [("city", .object [("validators", .array [.string "required"]), ("trimValue", .bool true),
          ("defaultValue", .string "Rome")])])])]

/-- The rule for the name. -/
def nameRule : Rule :=
  .descriptor ⟨.list ["required"], [("trimValue", .value (.bool true))]⟩

/-- The rule for the city. -/
def cityRule : Rule :=
  .descriptor ⟨.list ["required"],
    [("trimValue", .value (.bool true)), ("defaultValue", .value (.string "Rome"))]⟩

/-- The rule for the home. -/
def homeRule : Rule :=
  .descriptor ⟨.list [], [("objectValidator", .value (.object
    [("city", .object [("validators", .array [.string "required"]), ("trimValue", .bool true),
      ("defaultValue", .string "Rome")])]))]⟩

/-- The rules that these data describe. -/
def personRules : Rules :=
  .fields
    [("name", nameRule),
      ("home", .descriptor ⟨.list [], [("objectValidator", .value (.object
        [("city", .object [("validators", .array [.string "required"]), ("trimValue", .bool true),
          ("defaultValue", .string "Rome")])]))]⟩)]

/-- A person with a name and a home. -/
def person (name city : String) : Value :=
  .object [("name", .string name), ("home", .object [("city", .string city)])]

/-- The modules of the name are neat. -/
theorem neat_nameRule (v : Value) : Neat nameRule.canonical.modules v :=
  .trims fun _ hentry => Or.inl (congrArg Prod.fst (List.mem_singleton.1 hentry))

/-- The modules of the city are neat. -/
theorem neat_cityRule (v : Value) : Neat cityRule.canonical.modules v := by
  have hkept : (Value.string "Rome").trimmed = .string "Rome" := by
    with_unfolding_all rfl
  have htrims : ∀ entry ∈ [("trimValue", Configuration.value (.bool true))],
      entry.1 = "trimValue" ∨ entry.1 = "title" :=
    fun _ hentry => Or.inl (congrArg Prod.fst (List.mem_singleton.1 hentry))
  exact .default (.trims htrims) hkept

/-- The rules for a person are tidy for every value. -/
theorem tidy_personRules (v : Value) : Tidy personRules v := by
  have hcity : Module.nestedRules "home" (.value (.object
      [("city", .object [("validators", .array [.string "required"]), ("trimValue", .bool true),
        ("defaultValue", .string "Rome")])])) = .ok (.fields [("city", cityRule)]) := by
    with_unfolding_all rfl
  refine .intro (fun field rule hrule => ?_) fun field rule config inner hrule honly hinner => ?_
  · rcases List.mem_cons.1 hrule with hname | hhome
    · cases hname
      exact Or.inl (neat_nameRule _)
    · cases List.mem_singleton.1 hhome
      exact Or.inr ⟨_, _, rfl, hcity⟩
  · rcases List.mem_cons.1 hrule with hname | hhome
    · cases hname
      have hconfig : ("objectValidator", config) ∈ nameRule.canonical.modules := by
        rw [honly]
        exact List.mem_singleton_self _
      exact absurd hconfig (neat_nameRule v).not_mem
    · cases List.mem_singleton.1 hhome
      cases honly
      rw [hcity] at hinner
      cases hinner
      refine Tidy.of_neat fun field rule hrule => ?_
      cases List.mem_singleton.1 hrule
      exact neat_cityRule _

/-- After the first run the white space is gone and the city is there, and the record passes again
as it is. -/
theorem validate_stable_person :
    personData.distinctNames = true ∧ Rules.ofValue personData = .ok personRules ∧
    (standard : Engine Unit).validate personRules false ⟨person " Ann" " ", ()⟩ =
      .ok .valid ⟨person "Ann" "Rome", ()⟩ ∧
    (standard : Engine Unit).Settles personRules (person " Ann" " ") ∧
    (standard : Engine Unit).Accepts personRules (person "Ann" "Rome") := by
  have hnames : personData.distinctNames = true := by decide
  have hread : Rules.ofValue personData = .ok personRules := by
    with_unfolding_all rfl
  let nested := (standard : Engine Unit).nestedWithin (standard : Engine Unit).nestingLimit
    personRules.weight
  -- The fields are evaluated one by one, as both together are too much to unfold.
  have hname : standard.judgeWithin nested personRules.members [] "name" nameRule false
      ⟨recordOf (person " Ann" " "), ()⟩ = .ok .valid ⟨recordOf (person "Ann" " "), ()⟩ := by
    with_unfolding_all rfl
  have hhome : standard.judgeWithin nested personRules.members [] "home" homeRule false
      ⟨recordOf (person "Ann" " "), ()⟩ = .ok .valid ⟨recordOf (person "Ann" "Rome"), ()⟩ := by
    with_unfolding_all rfl
  have hall : standard.judgeAll nested personRules.members false personRules.members
      ⟨recordOf (person " Ann" " "), ()⟩ = .ok [] ⟨recordOf (person "Ann" "Rome"), ()⟩ :=
    Run.bind_eq_ok.2 ⟨.valid, _, hname, Run.bind_eq_ok.2 ⟨[], _,
      Run.bind_eq_ok.2 ⟨.valid, _, hhome, rfl⟩, rfl⟩⟩
  have hrun : (standard : Engine Unit).validate personRules false ⟨person " Ann" " ", ()⟩ =
      .ok .valid ⟨person "Ann" "Rome", ()⟩ :=
    validateBy_of_judgeAll (fun _ _ => rfl) hall
  have hsettles : (standard : Engine Unit).Settles personRules (person " Ann" " ") :=
    (tidy_personRules _).settles rfl
  exact ⟨hnames, hread, hrun, hsettles, (validate_stable rfl hnames hread hrun).1 hsettles⟩

/-- Data of rules for one field, into which a default value is put before it is trimmed. -/
def unsettledData : Value :=
  .object [("d", .object [("validators", .array [.string "email"]), ("defaultValue", .string "x"),
    ("trimValue", .bool true)])]

/-- The rules that these data describe. -/
def unsettledRules : Rules :=
  .fields [("d", .descriptor ⟨.list ["email"],
    [("defaultValue", .value (.string "x")), ("trimValue", .value (.bool true))]⟩)]

/-- White space is trimmed away, and the empty field passes; the next time the default value is put
into it, which does not pass. -/
theorem validate_stable_unsettled :
    unsettledData.distinctNames = true ∧ Rules.ofValue unsettledData = .ok unsettledRules ∧
    ∃ outcome,
      (standard : Engine Unit).validate unsettledRules false ⟨.object [("d", .string "  ")], ()⟩ =
        .ok .valid ⟨.object [("d", .string "")], ()⟩ ∧
      (standard : Engine Unit).validate unsettledRules false ⟨.object [("d", .string "")], ()⟩ =
        .ok outcome ⟨.object [("d", .string "x")], ()⟩ ∧
      outcome.isValid = false := by
  refine ⟨by decide, by with_unfolding_all rfl,
    .fields [("d", ⟨[("email", .message "Please enter a valid email address.")], []⟩)], ?_, ?_, rfl⟩
  · with_unfolding_all rfl
  · with_unfolding_all rfl

end Engine

end Vetting
