import Vetting.Proofs.DependencyCycles

/-!
# Engines that know more

Registering a validator or a module adds a name to what an engine knows; a name that is taken stays
with what it was registered for. A run does not change by it: an engine that knows more ends every
run as before, and leaves the same value, unless the run ended at an unknown validator
(`validate_registerAll`). Of the modules it may know only such more as the rules do not configure,
at any depth of nesting, for a configuration under a name that no module has is passed over.

The comparison goes along the run, with one relation between the runs of the two engines: the one
follows the other as long as that one does not miss a validator (`Run.Follows`). Nothing catches the
error of a missing validator on its way out, so it excuses the run of the engine that knows more.
Nested runs are over lighter rules, and the induction over the weight of rules closes the circle
(`Extends.validate`).
-/

set_option autoImplicit false

namespace Vetting

/-- A validator is missing, under whichever name. -/
def SetupError.Misses (e : SetupError) : Prop := ∃ name, e = .unknownValidator name

/-- A run that ends as another one does, in the same store, wherever that one does not end at an
unknown validator. -/
abbrev Run.Follows {τ σ α : Type} (run' run : Run τ σ α) : Prop :=
  Run.Related SetupError.Misses Eq Eq Eq run run'

open Run

/-- Rules configure a module under this name, for their own fields or for those of nested records at
any depth. -/
def Rules.Configures (rules : Rules) (name : String) : Prop :=
  ∃ inner, rules.Reaches inner ∧
    ∃ entry ∈ inner.members, name ∈ entry.2.canonical.modules.keys

namespace Engine

variable {σ : Type}

/-- An engine knows all that another one knows, under the same names, and is the same otherwise. -/
structure Extends (engine' engine : Engine σ) : Prop where
  settings : engine'.settings = engine.settings
  observe : engine'.observe = engine.observe
  validators : ∀ name validator, engine.validators.get? name = some validator →
    engine'.validators.get? name = some validator
  modules : ∀ name module, engine.modules.get? name = some module →
    engine'.modules.get? name = some module

namespace Extends

variable {engine engine' engine'' : Engine σ}

/-- An engine extends itself. -/
theorem refl (engine : Engine σ) : engine.Extends engine :=
  ⟨rfl, rfl, fun _ _ h => h, fun _ _ h => h⟩

/-- An extension of an extension is an extension. -/
theorem trans (h' : engine''.Extends engine') (h : engine'.Extends engine) :
    engine''.Extends engine where
  settings := h'.settings.trans h.settings
  observe := h'.observe.trans h.observe
  validators name validator hget := h'.validators name validator (h.validators name validator hget)
  modules name module hget := h'.modules name module (h.modules name module hget)

/-- An engine that knows more keeps step. -/
theorem inStep (h : engine'.Extends engine) : InStep Eq engine engine' where
  settings := h.settings.symm
  observe event c c' hc := by rw [h.observe, hc]

/-- Validators that are found are found by the engine that knows more. -/
theorem findAll (h : engine'.Extends engine) {specs : Fields Spec}
    {found : List (String × Validator × Spec)} (hfound : engine.findAll specs = .ok found) :
    engine'.findAll specs = .ok found := by
  induction specs generalizing found with
  | nil => exact hfound
  | cons entry rest ih =>
    obtain ⟨name, spec⟩ := entry
    rw [Engine.findAll, except_bind_eq_ok] at hfound
    obtain ⟨validator, hfind, hfound⟩ := hfound
    obtain ⟨others, hothers, hfound⟩ := except_bind_eq_ok.1 hfound
    have hfind' := find_eq_ok.2 (h.validators name validator (find_eq_ok.1 hfind))
    rw [Engine.findAll, hfind', ih hothers]
    exact hfound

end Extends

/-! ## Evaluations that follow each other -/

/-- An engine that knows more, but no more of the modules that some field rules configure, where
nested runs over the rules of their configurations follow those of the engine that knows less. -/
structure ExtendsOn (engine' engine : Engine σ) (nested' nested : NestedValidation σ)
    (rules : Fields Rule) : Prop where
  knows : engine'.Extends engine
  builtin : engine.modules = KnownModules.builtin
  configured : ∀ entry ∈ rules, ∀ name ∈ entry.2.canonical.modules.keys,
    engine'.modules.get? name = engine.modules.get? name
  nested : ∀ entry ∈ rules, ∀ config, ("objectValidator", config) ∈ entry.2.canonical.modules →
    ∀ inner, Module.nestedRules entry.1 config = .ok inner →
      Follows (nested' inner false) (nested inner false)

namespace ExtendsOn

variable {engine engine' : Engine σ} {nested nested' : NestedValidation σ} {rules : Fields Rule}
  {field : String} {rule : Rule}

/-- A field is judged as before. -/
theorem judge (h : engine'.ExtendsOn engine nested' nested rules) (hrule : (field, rule) ∈ rules) :
    JudgeRelated SetupError.Misses Eq Eq Eq Eq engine engine' nested nested' field rule rule := by
  intro depends depends' force hdepends
  refine judge_related h.knows.inStep ?_ ?_ hdepends force
  · cases hfound : engine.findAll rule.canonical.validators with
    | error e =>
      obtain ⟨name, -, -, rfl⟩ := findAll_error hfound
      exact related_excused ⟨name, rfl⟩ _
    | ok found =>
      rw [h.knows.findAll hfound]
      exact related_pure ⟨rfl, .refl fun _ _ => .refl field _⟩
  · refine (runModules_builtin h.knows.inStep (fun _ _ => by rw [h.builtin])
      (fun entry hentry => ?_) (h.nested _ hrule) .empty).imp ?_
    · rw [h.configured _ hrule entry.1 (List.mem_map_of_mem hentry), h.builtin]
    · rintro results _ rfl found verdicts - -
      exact ⟨rfl, rfl⟩

/-- Validation by some rules follows where evaluation by their members does. -/
theorem validateBy {rules : Rules} (h : engine'.ExtendsOn engine nested' nested rules.members)
    (force : Bool) :
    Follows (engine'.validateBy nested' rules force) (engine.validateBy nested rules force) :=
  validateBy_related h.knows.inStep (fun _ _ hrule => h.judge hrule) force

end ExtendsOn

/-- An engine with the built-in modules is followed by an engine that knows more, but no more of the
modules that the rules configure. The induction is on the weight of the rules. -/
theorem Extends.validate {engine engine' : Engine σ} (h : engine'.Extends engine)
    (hbuiltin : engine.modules = KnownModules.builtin) {rules : Rules}
    (hconfigured : ∀ name, rules.Configures name →
      engine'.modules.get? name = engine.modules.get? name) (force : Bool) :
    Follows (engine'.validate rules force) (engine.validate rules force) := by
  induction hweight : rules.weight using Nat.strong_induction_on generalizing rules force with
  | _ n ih =>
    subst hweight
    refine ExtendsOn.validateBy ⟨h, hbuiltin, fun entry hentry name hname => ?_,
      fun entry hentry config hconfig inner hread => ?_⟩ force
    · exact hconfigured name ⟨rules, .refl rules, entry, hentry, hname⟩
    · have hlt : inner.weight < rules.weight := nestedRules_weight_lt hentry hconfig hread
      rw [nestedWithin_of_lt hlt, nestedWithin_of_lt hlt]
      refine ih _ hlt (fun name hname => hconfigured name ?_) false rfl
      obtain ⟨last, hreaches, hlast⟩ := hname
      exact ⟨last, .nest hentry hconfig hread hreaches, hlast⟩

end Engine

/-! ## Registrations -/

/-- What is found in a registry once a name has been registered: the new entry under its name, which
was not taken, and under all other names what was found before. -/
theorem Registry.get?_of_register {α : Type} {registry after : Registry α} {name : String}
    {entry : α} {taken : SetupError} (h : registry.register name entry taken = .ok after) :
    registry.get? name = none ∧
      ∀ other, after.get? other = if other = name then some entry else registry.get? other := by
  unfold register at h
  split at h
  · cases h
  · next hfree =>
    cases h
    refine ⟨by simpa [contains_eq_isSome] using hfree, fun other => ?_⟩
    show (registry.entries.put name entry).get? other = _
    split
    · next hsame => rw [hsame, Fields.get?_put_self]
    · next hother => exact Fields.get?_put_of_ne _ _ hother

/-- A call that registers something with an engine. -/
inductive Registration (σ : Type) where
  | validator (name : String) (validator : Validator)
  | module (name : String) (module : Module σ)

/-- The error of a call whose name is taken. -/
def Registration.duplicate {σ : Type} : Registration σ → SetupError
  | .validator name _ => .duplicateValidator name
  | .module name _ => .duplicateModule name

namespace Engine

variable {σ : Type} {engine : Engine σ}

/-- Whether the name of a call is taken. -/
def taken (engine : Engine σ) : Registration σ → Bool
  | .validator name _ => engine.validators.contains name
  | .module name _ => engine.modules.contains name

/-- The engine that a call makes of an engine, or the error that rejects the call. -/
def attempt (engine : Engine σ) : Registration σ → Except SetupError (Engine σ)
  | .validator name validator => engine.addValidator name validator
  | .module name module => engine.addModule name module

/-- The engine after a call, which is the one before when the call is rejected. -/
def register (engine : Engine σ) (call : Registration σ) : Engine σ :=
  match engine.attempt call with
  | .ok after => after
  | .error _ => engine

/-- The engine after some calls, one after the other. -/
def registerAll (engine : Engine σ) (calls : List (Registration σ)) : Engine σ :=
  calls.foldl register engine

/-- A call is rejected exactly when its name is taken, whatever it brings. -/
theorem attempt_eq_error_iff {call : Registration σ} {e : SetupError} :
    engine.attempt call = .error e ↔ engine.taken call = true ∧ e = call.duplicate := by
  cases call with
  | validator name validator =>
    simp only [attempt, addValidator, KnownValidators.add, Registry.register, taken,
      Registration.duplicate]
    cases engine.validators.contains name with
    | true => simp [bind, Except.bind, eq_comm]
    | false => simp [bind, Except.bind, pure, Except.pure]
  | module name module =>
    simp only [attempt, addModule, KnownModules.add, Registry.register, taken,
      Registration.duplicate]
    cases engine.modules.contains name with
    | true => simp [bind, Except.bind, eq_comm]
    | false => simp [bind, Except.bind, pure, Except.pure]

/-- A registration that is refused leaves the engine as it was. -/
theorem register_of_error {call : Registration σ} {e : SetupError}
    (h : engine.attempt call = .error e) : engine.register call = engine := by
  rw [register, h]

/-- An engine knows after a call what it knew before, and of modules no more than the one of the
call. -/
theorem register_extends (engine : Engine σ) (call : Registration σ) :
    (engine.register call).Extends engine ∧
      ∀ name, (∀ module, call ≠ .module name module) →
        (engine.register call).modules.get? name = engine.modules.get? name := by
  cases hattempt : engine.attempt call with
  | error e =>
    rw [register_of_error hattempt]
    exact ⟨.refl engine, fun _ _ => rfl⟩
  | ok after =>
    rw [register, hattempt]
    dsimp only
    cases call with
    | validator added validator =>
      obtain ⟨validators, hadded, hattempt⟩ := except_bind_eq_ok.1 hattempt
      obtain ⟨hfree, hget⟩ := Registry.get?_of_register hadded
      cases hattempt
      refine ⟨⟨rfl, rfl, fun name known hknown => ?_, fun _ _ h => h⟩, fun _ _ => rfl⟩
      rw [hget, if_neg]
      · exact hknown
      · rintro rfl
        rw [hfree] at hknown
        cases hknown
    | module added module =>
      obtain ⟨modules, hadded, hattempt⟩ := except_bind_eq_ok.1 hattempt
      obtain ⟨hfree, hget⟩ := Registry.get?_of_register hadded
      cases hattempt
      refine ⟨⟨rfl, rfl, fun _ _ h => h, fun name known hknown => ?_⟩, fun name hname => ?_⟩
      · rw [hget, if_neg]
        · exact hknown
        · rintro rfl
          rw [hfree] at hknown
          cases hknown
      · have hother : name ≠ added := by
          rintro rfl
          exact hname module rfl
        exact (hget name).trans (if_neg hother)

/-- An engine knows after some calls what it knew before, and of modules no more than those of the
calls. -/
theorem registerAll_extends (engine : Engine σ) (calls : List (Registration σ)) :
    (engine.registerAll calls).Extends engine ∧
      ∀ name, (∀ module, .module name module ∉ calls) →
        (engine.registerAll calls).modules.get? name = engine.modules.get? name := by
  induction calls generalizing engine with
  | nil => exact ⟨.refl engine, fun _ _ => rfl⟩
  | cons call rest ih =>
    obtain ⟨hfirst, hmodules⟩ := register_extends engine call
    obtain ⟨hrest, hothers⟩ := ih (engine.register call)
    refine ⟨hrest.trans hfirst, fun name hname => ?_⟩
    refine (hothers name fun module hmem => hname module (List.mem_cons_of_mem _ hmem)).trans ?_
    refine hmodules name fun module heq => hname module ?_
    rw [heq]
    exact List.mem_cons_self

/-- A rejected call can be left out of a history of calls. -/
theorem registerAll_rejected {before after : List (Registration σ)} {call : Registration σ}
    {e : SetupError} (h : (engine.registerAll before).attempt call = .error e) :
    engine.registerAll (before ++ call :: after) = engine.registerAll (before ++ after) := by
  have hsame : (engine.registerAll before).register call = engine.registerAll before :=
    register_of_error h
  unfold registerAll at hsame ⊢
  rw [List.foldl_append, List.foldl_cons, hsame, List.foldl_append]

/-- Registering names extends an engine conservatively. After any calls, accepted or rejected, of
which none registers a module that the rules configure at some depth, an engine with the built-in
modules ends a run as it would have ended it before, and leaves the same value, unless it would have
ended at an unknown validator. A call is rejected for no other reason than that its name is taken,
and makes no difference to anything that follows. -/
theorem validate_registerAll (engine : Engine σ) (hbuiltin : engine.modules = KnownModules.builtin)
    (calls : List (Registration σ)) {rules : Rules}
    (hunconfigured : ∀ name module, .module name module ∈ calls → ¬ rules.Configures name)
    (force : Bool) (s : Store Value σ) :
    ((∀ name t, engine.validate rules force s ≠ .error (.unknownValidator name) t) →
      (engine.registerAll calls).validate rules force s = engine.validate rules force s) ∧
    ∀ before call after e, calls = before ++ call :: after →
      (engine.registerAll before).attempt call = .error e →
        (engine.registerAll before).taken call = true ∧ e = call.duplicate ∧
          engine.registerAll calls = engine.registerAll (before ++ after) := by
  obtain ⟨hextends, hmodules⟩ := registerAll_extends engine calls
  have hfollows : Follows ((engine.registerAll calls).validate rules force)
      (engine.validate rules force) := by
    refine hextends.validate hbuiltin (fun name hname => hmodules name ?_) force
    exact fun module hmem => hunconfigured name module hmem hname
  constructor
  · intro hknown
    rcases hfollows.eq_or_excused s with hsame | ⟨_, t, ⟨name, rfl⟩, hmisses⟩
    · exact hsame.symm
    · exact absurd hmisses (hknown name t)
  · rintro before call after e rfl hrejected
    obtain ⟨htaken, hduplicate⟩ := attempt_eq_error_iff.1 hrejected
    exact ⟨htaken, hduplicate, registerAll_rejected hrejected⟩

/-- A nested record with a required field. -/
def parentRules : Rules :=
  .fields [("child", .descriptor ⟨.name "object",
    [("objectValidator", .rules (.fields [("a", .bare (.name "required"))]))]⟩)]

/-- At any depth these rules configure nothing but the module for nested records. -/
theorem configures_parentRules {name : String} (h : parentRules.Configures name) :
    name = "objectValidator" := by
  obtain ⟨inner, hreaches, entry, hentry, hname⟩ := h
  cases hreaches with
  | refl =>
    rw [List.mem_singleton.1 hentry] at hname
    exact List.mem_singleton.1 hname
  | nest hrule hconfig hread hrest =>
    obtain ⟨rfl, rfl⟩ := Prod.mk.injEq .. ▸ List.mem_singleton.1 hrule
    obtain ⟨-, rfl⟩ := Prod.mk.injEq .. ▸ List.mem_singleton.1 hconfig
    cases hread
    have hlast := hrest.eq_of_noNested fun entry hentry config hconfig => by
      rw [List.mem_singleton.1 hentry] at hconfig
      cases hconfig
    rw [hlast] at hentry
    rw [List.mem_singleton.1 hentry] at hname
    cases hname

/-- A validator that passes everything, once under a name that is taken, and a module that would
write into every field it is configured for. -/
def careless : List (Registration Unit) :=
  [.validator "required" ⟨fun _ _ => true, .text "", false⟩,
    .validator "anything" ⟨fun _ _ => true, .text "", false⟩,
    .module "shout" fun _ _ => do Module.write (.string "!"); return none]

/-- One of the calls is rejected, and the nested record still has to have its field. -/
theorem validate_registerAll_careless :
    (∀ name module, .module name module ∈ careless → ¬ parentRules.Configures name) ∧
    ((standard : Engine Unit).registerAll careless).validators.size =
      (standard : Engine Unit).validators.size + 1 ∧
    ((standard : Engine Unit).registerAll careless).validate parentRules false
        ⟨.object [("child", .object [])], ()⟩ =
      .ok (.fields [("child", ⟨[("objectValidator", .nested (.fields
          [("a", ⟨[("required", .message "This field is required.")], []⟩)]))], []⟩)])
        ⟨.object [("child", .object [])], ()⟩ := by
  have hrun : (standard : Engine Unit).validate parentRules false
      ⟨.object [("child", .object [])], ()⟩ =
        .ok (.fields [("child", ⟨[("objectValidator", .nested (.fields
            [("a", ⟨[("required", .message "This field is required.")], []⟩)]))], []⟩)])
          ⟨.object [("child", .object [])], ()⟩ := by with_unfolding_all rfl
  have hunconfigured : ∀ name module, .module name module ∈ careless →
      ¬ parentRules.Configures name := by
    intro name module hmem hconfigures
    rw [configures_parentRules hconfigures] at hmem
    simp [careless] at hmem
  refine ⟨hunconfigured, by decide, ?_⟩
  rw [(validate_registerAll standard rfl careless hunconfigured false _).1, hrun]
  intro name t hmisses
  rw [hrun] at hmisses
  cases hmisses

end Engine

end Vetting
