import Vetting.Proofs.Evaluation

/-!
# The frame of a run

A run by field rules writes into a record in one way only: a registered module that is configured
for a declared field puts a value into that field. So whatever the modules of the caller do, and
however the run ends, the record keeps its fields in their order, new fields come after them, and
only such a field is new or has another value (`validate_frame`). A value that is no record stays
what it is.

A single module is the step that this is shown for (`runModule_framed`); the laws of evaluations
(`Governed`) carry it through the settling of dependencies and over all fields of a rule map.
-/

set_option autoImplicit false

namespace Vetting

/-- One record comes from another by writing into some fields only: the names keep their places and
new ones are appended, and a field that is new or has another value is one of these. -/
structure Framed (writable : String → Prop) (before after : Record) : Prop where
  order : before.keys <+: after.keys
  added : ∀ name ∈ after.keys, name ∉ before.keys → writable name
  changed : ∀ name, after.get? name ≠ before.get? name → writable name

namespace Framed

variable {writable : String → Prop} {r r' r'' : Record}

/-- A record is framed by itself. -/
theorem refl (r : Record) : Framed writable r r where
  order := List.prefix_refl _
  added _ hmem hnew := absurd hmem hnew
  changed _ hne := absurd rfl hne

/-- Two steps that change writable fields only make one. -/
theorem trans (h : Framed writable r r') (h' : Framed writable r' r'') :
    Framed writable r r'' where
  order := h.order.trans h'.order
  added := by
    intro name hmem hnew
    by_cases hbetween : name ∈ r'.keys
    · exact h.added name hbetween hnew
    · exact h'.added name hmem hbetween
  changed := by
    intro name hne
    by_cases hbetween : r'.get? name = r.get? name
    · apply h'.changed
      rwa [hbetween]
    · exact h.changed name hbetween

/-- Putting a value into a writable field changes no other. -/
theorem put {name : String} (hname : writable name) (r : Record) (v : Value) :
    Framed writable r (r.put name v) where
  order := by
    rw [Fields.keys_put]
    split
    · exact List.prefix_refl _
    · exact List.prefix_append _ _
  added := by
    intro other hmem hnew
    rw [Fields.keys_put] at hmem
    split at hmem
    · exact absurd hmem hnew
    · rcases List.mem_append.1 hmem with hold | hlast
      · exact absurd hold hnew
      · rwa [List.mem_singleton.1 hlast]
  changed := by
    intro other hne
    by_cases hsame : other = name
    · rwa [hsame]
    · exact absurd (Fields.get?_put_of_ne r v hsame) hne

end Framed

/-- One value comes from another by writing into some fields of it only; a value that is no record
stays as it is. -/
structure FramedValue (writable : String → Prop) (v w : Value) : Prop where
  record : ∀ before, v = .object before →
    ∃ after, w = .object after ∧ Framed writable before after
  other : (∀ before, v ≠ .object before) → w = v

namespace FramedValue

variable {writable : String → Prop} {v w x : Value}

/-- A value is framed by itself. -/
theorem refl (v : Value) : FramedValue writable v v where
  record before hv := ⟨before, hv, .refl before⟩
  other _ := rfl

/-- Two steps that change writable fields of a value only make one. -/
theorem trans (h : FramedValue writable v w) (h' : FramedValue writable w x) :
    FramedValue writable v x where
  record := by
    intro before hv
    obtain ⟨between, hw, hfirst⟩ := h.record before hv
    obtain ⟨after, hx, hsecond⟩ := h'.record between hw
    exact ⟨after, hx, hfirst.trans hsecond⟩
  other := by
    intro hv
    have hw : w = v := h.other hv
    rw [h'.other (by rwa [hw]), hw]

end FramedValue

/-- The store that a run leaves, however it ends. -/
def Run.leaves {τ σ α : Type} (run : Run τ σ α) (s : Store τ σ) : Store τ σ :=
  match run s with
  | .ok _ t => t
  | .error _ t => t

/-- A run within a conduct that only looks at the change of the target leaves such a change. -/
theorem Run.ObeysAt.leaves {τ σ α : Type} {R : τ → τ → Prop} {hrefl : ∀ t, R t t}
    {htrans : ∀ t u v, R t u → R u v → R t v} {run : Run τ σ α} {s : Store τ σ}
    (h : run.ObeysAt (.changing R hrefl htrans) s) : R s.target (run.leaves s).target := by
  unfold Run.leaves
  split
  · next hrun => exact h.keeps hrun
  · next hrun => exact h.breaks hrun

namespace Engine

variable {σ : Type} {engine : Engine σ} {nested : NestedValidation σ} {rules : Fields Rule}

/-- A run by field rules may write into a field that is declared with a registered module. -/
def Writes (engine : Engine σ) (rules : Fields Rule) (field : String) : Prop :=
  ∃ rule, (field, rule) ∈ rules ∧
    ∃ name ∈ rule.canonical.modules.keys, engine.modules.contains name = true

/-- Runs on a record that write into fields that a run by these rules may write into. -/
def framing (engine : Engine σ) (rules : Fields Rule) : Conduct Record σ :=
  .changing (Framed (engine.Writes rules)) .refl fun _ _ _ => .trans

/-- Runs on a value that write into such fields of it. -/
def framingValue (engine : Engine σ) (rules : Fields Rule) : Conduct Value σ :=
  .changing (FramedValue (engine.Writes rules)) .refl fun _ _ _ => .trans

/-- A module writes into its own field, if at all, also when it fails. -/
theorem runModule_framed {field : String} (hfield : engine.Writes rules field)
    (form : CanonicalForm) (config : Configuration) (module : Module σ) :
    (engine.runModule nested field form config module).Obeys (engine.framing rules) :=
  runModule_changing (Framed.put hfield) form config module

/-- The modules of a declared field change writable fields only. -/
theorem runModules_framed {field : String} {rule : Rule} (hrule : (field, rule) ∈ rules)
    (results : Contributions) :
    (engine.runModules nested field rule.canonical rule.canonical.modules results).Obeys
      (engine.framing rules) := by
  apply runModules_obeys
  intro entry hentry module hget
  apply runModule_framed
  exact ⟨rule, hrule, entry.1, List.mem_map_of_mem hentry, Registry.contains_of_get? hget⟩

/-- Every step of an evaluation stays within the frame; only the modules write at all. -/
theorem governed_framing (engine : Engine σ) (nested : NestedValidation σ) (rules : Fields Rule) :
    Governed engine nested rules (fun _ => engine.framing rules)
      (fun _ _ => engine.framing rules) where
  keeps_judging h := h
  breaks_judging h := h
  enters _ hrun := during_changing hrun
  cycles _ _ _ s := .refl s.target
  misses _ _ _ s := .refl s.target
  prepares _ hrule := runModules_framed hrule .empty
  abandons _ _ _ _ _ _ h := h

/-- A run on the fields of a value that stays within the frame does so on the value. -/
theorem focus_framed {α : Type} {run : Run Record σ α} (h : run.Obeys (engine.framing rules)) :
    (Run.focus recordOf withRecord run).Obeys (engine.framingValue rules) := by
  intro s
  have hvalue : ∀ record, Framed (engine.Writes rules) (recordOf s.target) record →
      FramedValue (engine.Writes rules) s.target (withRecord s.target record) := by
    intro record hframed
    cases hv : s.target with
    | object members =>
      rw [hv] at hframed
      refine ⟨fun before hbefore => ?_, fun hother => absurd rfl (hother members)⟩
      cases hbefore
      exact ⟨record, rfl, hframed⟩
    | _ => exact .refl _
  have hrecord := h ⟨recordOf s.target, s.caller⟩
  unfold Run.ObeysAt Run.focus
  cases hrun : run ⟨recordOf s.target, s.caller⟩ with
  | ok a t => exact hvalue t.target (hrecord.keeps hrun)
  | error e t => exact hvalue t.target (hrecord.breaks hrun)

/-- Validation of all fields of a value stays within the frame. -/
theorem validateFields_framed (force : Bool) :
    (engine.validateFields nested rules force).Obeys (engine.framingValue rules) := by
  have hall : (engine.judgeAll nested rules force rules).Obeys (engine.framing rules) :=
    (governed_framing engine nested rules).judgeAll_obeys force rules fun _ h => h
  intro s
  unfold validateFields
  apply Run.obeysAt_target
  split
  · exact Run.obeysAt_throw (.refl s.target)
  · apply (focus_framed hall s).bind
    intro reports t _
    split <;> exact Run.obeys_pure _ t

/-- What a run by field rules does to the value that it is given, whether it ends in an outcome or
in an error: a record keeps its fields in their order, with new ones after them, and a field that is
new or has another value is declared with a registered module; any other value stays as it is. -/
theorem validate_frame (engine : Engine σ) (rules : Fields Rule) (force : Bool)
    (s : Store Value σ) :
    FramedValue (engine.Writes rules) s.target
      ((engine.validate (.fields rules) force).leaves s).target := by
  have hobeys : (engine.validate (.fields rules) force).ObeysAt (engine.framingValue rules) s :=
    validateFields_framed force s
  unfold Run.leaves
  split
  · next hrun => exact hobeys.keeps hrun
  · next hrun => exact hobeys.breaks hrun

end Engine

end Vetting
