import Vetting.Proofs.RepeatedEvaluation

/-!
# What the modules of a field go by

The built-in modules look at the record in their own field only, unless they are given a function of
the record. So a pass of the modules of a field goes by the value of the field alone: on any record
that holds the same value there, and whatever state the caller is in, it ends in the same way and
writes the same into the field (`runModules_local`). `Passes`, which speaks of some record, is
thereby a partial function of the value, and holds of every record with that value.
-/

set_option autoImplicit false

namespace Vetting

/-- A module that is not configured with a function looks at nothing in the record but its field. -/
theorem Module.builtin_local {σ : Type} {name : String} {module : Module σ}
    (hmem : (name, module) ∈ (builtins : List (String × Module σ))) {config : Configuration}
    (hconfig : ∀ hook, config ≠ .function hook) (scope : Scope σ) {record : Record}
    (hread : record.read scope.field = scope.value) :
    module config { scope with record } = module config scope := by
  have hvalue : ({ scope with record } : Scope σ).value = scope.value := hread
  simp only [builtins, List.mem_cons, Prod.mk.injEq, List.not_mem_nil, or_false] at hmem
  rcases hmem with ⟨-, rfl⟩ | ⟨-, rfl⟩ | ⟨-, rfl⟩ | ⟨-, rfl⟩ | ⟨-, rfl⟩ | ⟨-, rfl⟩ | ⟨-, rfl⟩ |
    ⟨-, rfl⟩
  · simp only [trimValue, hvalue]
  · cases config with
    | value v => simp only [defaultValue, hvalue]
    | rules rules => simp only [defaultValue, hvalue]
    | function hook => exact absurd rfl (hconfig hook)
  · simp only [int, hvalue]
  · simp only [float, hvalue]
  · have hrounding : roundingOf config { scope with record } = roundingOf config scope := rfl
    simp only [roundedFloat, hvalue, hrounding]
  · simp only [objectValidator, hvalue]
  · cases config with
    | value v => rfl
    | rules rules => rfl
    | function hook => exact absurd rfl (hconfig hook)
  · rfl

namespace Engine

variable {σ : Type} {engine : Engine σ} {nested : NestedValidation σ} {field : String}

/-- A module that is not given a function goes by the value of its field, and writes the same on
every record that holds it. -/
theorem runModule_local {name : String} {module : Module σ}
    (hmem : (name, module) ∈ (Module.builtins : List (String × Module σ)))
    {config : Configuration} (hconfig : ∀ hook, config ≠ .function hook) {rule : CanonicalForm}
    {s t : Store Record σ} {out : Option Contribution}
    (hrun : engine.runModule nested field rule config module s = .ok out t) :
    ∃ written, t.target = s.target.putIf field written ∧
      ∀ record : Record, record.read field = s.target.read field →
        engine.runModule nested field rule config module ⟨record, s.caller⟩ =
          .ok out ⟨record.putIf field written, t.caller⟩ := by
  obtain ⟨w, hmodule, rfl⟩ := runModule_eq_ok_iff.1 hrun
  refine ⟨w.target, rfl, fun record hread => ?_⟩
  have hlocal := Module.builtin_local hmem hconfig
    ⟨field, rule, engine.settings.strict, s.target, engine.announced nested⟩ hread
  rw [← hlocal] at hmodule
  exact runModule_eq_ok_iff.2 ⟨w, hmodule, rfl⟩

/-- Modules without functions, one after the other, do the same to all records that hold the same
value in their field. -/
theorem runModules_sameCaller (hmodules : engine.modules = KnownModules.builtin)
    {rule : CanonicalForm} {configs : Fields Configuration}
    (hconfigs : ∀ entry ∈ configs, ∀ hook, entry.2 ≠ .function hook)
    {results after : Contributions} {s t : Store Record σ}
    (hrun : engine.runModules nested field rule configs results s = .ok after t) :
    ∃ written, t.target = s.target.putIf field written ∧
      ∀ record : Record, record.read field = s.target.read field →
        engine.runModules nested field rule configs results ⟨record, s.caller⟩ =
          .ok after ⟨record.putIf field written, t.caller⟩ := by
  induction configs generalizing results s with
  | nil =>
    obtain ⟨rfl, rfl⟩ := Run.pure_eq_ok.1 hrun
    exact ⟨none, rfl, fun _ _ => rfl⟩
  | cons entry rest ih =>
    obtain ⟨name, config⟩ := entry
    have hrest := fun entry hentry => hconfigs entry (List.mem_cons_of_mem _ hentry)
    rw [runModules, hmodules] at hrun
    cases hget : (KnownModules.builtin : KnownModules σ).get? name with
    | none =>
      rw [hget] at hrun
      obtain ⟨written, htarget, hsame⟩ := ih hrest hrun
      refine ⟨written, htarget, fun record hread => ?_⟩
      rw [runModules, hmodules, hget]
      exact hsame record hread
    | some module =>
      rw [hget] at hrun
      obtain ⟨out, u, hmodule, hrun⟩ := Run.bind_eq_ok.1 hrun
      obtain ⟨first, hu, hfirst⟩ := runModule_local (KnownModules.mem_of_builtin_get? hget)
        (hconfigs (name, config) List.mem_cons_self) hmodule
      obtain ⟨second, ht, hsecond⟩ := ih hrest hrun
      refine ⟨second <|> first, ?_, fun record hread => ?_⟩
      · rw [ht, hu, Fields.putIf_putIf]
      · have hleft : (record.putIf field first).read field = u.target.read field := by
          rw [hu, Fields.read_putIf, Fields.read_putIf, hread]
        rw [runModules, hmodules, hget]
        refine Run.bind_eq_ok.2 ⟨out, _, hfirst record hread, ?_⟩
        rw [← Fields.putIf_putIf]
        exact hsecond _ hleft

/-- The built-in modules do not look at the state of the caller. -/
theorem alike_self (hmodules : engine.modules = KnownModules.builtin) :
    engine.Alike (fun _ _ => True) engine :=
  ⟨⟨rfl, fun _ _ _ _ => trivial⟩, rfl, hmodules, hmodules⟩

/-- A pass of the modules of a field, none of them configured with a function, goes by the value of
the field alone. -/
theorem runModules_local (hmodules : engine.modules = KnownModules.builtin)
    {rule : CanonicalForm} {configs : Fields Configuration}
    (hconfigs : ∀ entry ∈ configs, ∀ hook, entry.2 ≠ .function hook)
    {results after : Contributions} {s t : Store Record σ}
    (hrun : engine.runModules engine.validate field rule configs results s = .ok after t) :
    ∃ written, t.target = s.target.putIf field written ∧
      ∀ s' : Store Record σ, s'.target.read field = s.target.read field →
        ∃ c, engine.runModules engine.validate field rule configs results s' =
          .ok after ⟨s'.target.putIf field written, c⟩ := by
  obtain ⟨written, htarget, hsame⟩ := runModules_sameCaller hmodules hconfigs hrun
  refine ⟨written, htarget, fun s' hread => ?_⟩
  have halike := alike_self hmodules
  have hcallers : Run.Alike (fun _ _ => True)
      (engine.runModules engine.validate field rule configs results)
      (engine.runModules engine.validate field rule configs results) :=
    halike.runModules configs (fun _ _ _ inner _ => halike.validate inner false) results
  -- The run on the other record is known for the first caller, and so it is for the second.
  obtain ⟨d, hrun', -⟩ := hcallers.ok s'.caller trivial (hsame s'.target hread)
  exact ⟨d, hrun'⟩

section Passes

variable {rule : Rule} {v v' w : Value} {clean clean' : Bool}

/-- What the modules of a field can do to a value of it, they do to every record with that value. -/
theorem Passes.everywhere (hmodules : engine.modules = KnownModules.builtin)
    (hconfigs : ∀ entry ∈ rule.canonical.modules, ∀ hook, entry.2 ≠ .function hook)
    (h : engine.Passes engine.validate field rule v v' clean) (s : Store Record σ)
    (hread : s.target.read field = v) :
    ∃ results written c, engine.runModules engine.validate field rule.canonical
        rule.canonical.modules .empty s = .ok results ⟨s.target.putIf field written, c⟩ ∧
      (s.target.putIf field written).read field = v' ∧ results.errors.isEmpty = clean := by
  obtain ⟨x, results, y, hrun, rfl, rfl, rfl⟩ := h
  obtain ⟨written, htarget, hsame⟩ := runModules_local hmodules hconfigs hrun
  obtain ⟨c, hs⟩ := hsame s hread
  refine ⟨results, written, c, hs, ?_, rfl⟩
  rw [htarget, Fields.read_putIf, Fields.read_putIf, hread]

/-- What the modules of a field do to a value of it is determined by the value. -/
theorem Passes.unique (hmodules : engine.modules = KnownModules.builtin)
    (hconfigs : ∀ entry ∈ rule.canonical.modules, ∀ hook, entry.2 ≠ .function hook)
    (h : engine.Passes engine.validate field rule v v' clean)
    (h' : engine.Passes engine.validate field rule v w clean') : w = v' ∧ clean' = clean := by
  obtain ⟨x, results, y, hrun, hread, rfl, rfl⟩ := h'
  obtain ⟨results', written, c, hrun', hleft, hclean⟩ := h.everywhere hmodules hconfigs x hread
  rw [hrun] at hrun'
  cases hrun'
  exact ⟨hleft, hclean⟩

end Passes

end Engine

end Vetting
