import Vetting.Proofs.ForcedReports
import Vetting.Proofs.RunFrame

/-!
# A value as a whole

A descriptor for a value as a whole is evaluated on a record that holds the value as its only field.
So validation by such a descriptor is validation by field rules of that record, unwrapped: it ends
in the same error, or in a pass where the record passes, or in the errors of the one report
(`validate_whole`). And the value is never lost: a run only adds fields to a record, so when it
ends, in an error or not, the field still is there, and what it holds is left in the place of the
value.

Both runs evaluate that field within the same nested validation, since rules for one field weigh
what its descriptor weighs for a value as a whole (`Rules.weight_asField`). Each makes an outcome of
the result for the field in its own way (`validateFields_asField`, `validateWhole_eq`), and the two
ways are compared at the three endings that the evaluation can have.
-/

set_option autoImplicit false

namespace Vetting

/-- How a run on a value as a whole ends, next to the end of the run by field rules on the record
that holds the value as its only field: in the same error or with the same findings, and in the
place of the value stands what the record holds in the end. -/
inductive Unwraps {σ : Type} :
    EStateM.Result SetupError (Store Value σ) Outcome →
      EStateM.Result SetupError (Store Value σ) Outcome → Prop where
  | failed {r : Record} {w : Value} (held : r.get? wholeField = some w) (e : SetupError) (c : σ) :
      Unwraps (.error e ⟨.object r, c⟩) (.error e ⟨w, c⟩)
  | passed {r : Record} {w : Value} (held : r.get? wholeField = some w) (c : σ) :
      Unwraps (.ok .valid ⟨.object r, c⟩) (.ok .valid ⟨w, c⟩)
  | reported {r : Record} {w : Value} (held : r.get? wholeField = some w) (report : Report)
      (c : σ) :
      Unwraps (.ok (.fields [(wholeField, report)]) ⟨.object r, c⟩)
        (.ok (.errors report.errors) ⟨w, c⟩)

namespace Descriptor

/-- The field rules by which a record is validated whose only field holds the value that the
descriptor is for. -/
def asField (descriptor : Descriptor) : Fields Rule :=
  [(wholeField, .descriptor descriptor)]

end Descriptor

/-- Rules for one field weigh what its descriptor weighs for a value as a whole. -/
theorem Rules.weight_asField (descriptor : Descriptor) :
    (Rules.fields descriptor.asField).weight = (Rules.whole descriptor).weight := rfl

namespace FieldResult

/-- The outcome for a record that has only one field with a rule. -/
def asField : FieldResult → Outcome
  | .valid => .valid
  | .checked report => .fields [(wholeField, report)]

/-- The outcome for a value as a whole. -/
def asWhole : FieldResult → Outcome
  | .valid => .valid
  | .checked report => .errors report.errors

end FieldResult

/-- A record that only had fields written into still has every field that it had. -/
theorem Framed.exists_get? {writable : String → Prop} {before after : Record}
    (h : Framed writable before after) {name : String} {v : Value}
    (hget : before.get? name = some v) : ∃ w, after.get? name = some w := by
  have hbefore : name ∈ before.keys := (Fields.get?_isSome_iff before name).1 (by rw [hget]; rfl)
  have hafter : name ∈ after.keys := h.order.subset hbefore
  exact Option.isSome_iff_exists.1 ((Fields.get?_isSome_iff after name).2 hafter)

namespace Engine

variable {σ : Type} {engine : Engine σ} {nested : NestedValidation σ} {descriptor : Descriptor}
  {force : Bool}

/-- The evaluation of the one field. -/
def judgeAsField (engine : Engine σ) (nested : NestedValidation σ) (descriptor : Descriptor)
    (force : Bool) : Run Record σ FieldResult :=
  engine.judgeWithin nested descriptor.asField [] wholeField (.descriptor descriptor) force

/-- The evaluation of the one field does not take it out of the record, however it ends. -/
theorem judgeAsField_kept (engine : Engine σ) (nested : NestedValidation σ)
    (descriptor : Descriptor) (force : Bool) {s : Store Record σ} {v : Value}
    (hheld : s.target.get? wholeField = some v) :
    ∃ w, ((engine.judgeAsField nested descriptor force).leaves s).target.get? wholeField =
      some w := by
  have hobeys : (engine.judgeAsField nested descriptor force).ObeysAt
      (engine.framing descriptor.asField) s :=
    (governed_framing engine nested descriptor.asField).judgeWithin_obeys List.mem_cons_self force s
  unfold Run.leaves
  split
  · next hrun => exact (hobeys.keeps hrun).exists_get? hheld
  · next hrun => exact (hobeys.breaks hrun).exists_get? hheld

/-- The evaluation of all fields, where there is only one. -/
theorem judgeAll_asField :
    engine.judgeAll nested descriptor.asField force descriptor.asField =
      (fun result => match result with
        | .valid => []
        | .checked report => [(wholeField, report)]) <$>
        engine.judgeAsField nested descriptor force := by
  rw [map_eq_pure_bind]
  refine bind_congr fun result => ?_
  cases result <;> rfl

/-- Validation of a record by the rule of one field reports what the field reports. -/
theorem validateFields_asField (r : Record) (c : σ) :
    engine.validateFields nested descriptor.asField force ⟨.object r, c⟩ =
      (FieldResult.asField <$> Run.focus recordOf withRecord
        (engine.judgeAsField nested descriptor force)) ⟨.object r, c⟩ := by
  have htruthy : (!Value.isTruthy (.object r)) = false := rfl
  unfold validateFields
  rw [Run.target_bind, htruthy, if_neg Bool.false_ne_true, judgeAll_asField, Run.focus_map]
  dsimp only
  rw [bind_map_left]
  cases hturn : Run.focus recordOf withRecord (engine.judgeAsField nested descriptor force)
      ⟨.object r, c⟩ with
  | error e t => rw [Run.bind_of_error hturn, Run.map_of_error _ hturn]
  | ok result t =>
    rw [Run.bind_of_ok hturn, Run.map_of_ok _ hturn]
    cases result with
    | checked report => simp [FieldResult.asField]
    | valid =>
      -- A field that is forced to report is not passed over.
      cases force with
      | false => rfl
      | true =>
        obtain ⟨after, hafter, -⟩ := Run.focus_eq_ok.1 hturn
        obtain ⟨report, hreport⟩ := judgeWithin_forced hafter
        cases hreport

/-- Validation of a value as a whole reports the errors of the field that holds the value. -/
theorem validateWhole_eq :
    engine.validateWhole nested descriptor force =
      FieldResult.asWhole <$> Run.focus (fun v => [(wholeField, v)])
        (fun _ record => Fields.read record wholeField)
        (engine.judgeAsField nested descriptor force) := by
  unfold validateWhole
  rw [map_eq_pure_bind]
  refine bind_congr fun result => ?_
  cases result <;> rfl

/-- Within any nested validation the two runs end alike. -/
theorem validateWhole_unwraps (nested : NestedValidation σ) (descriptor : Descriptor)
    (force : Bool) (v : Value) (c : σ) :
    Unwraps
      (engine.validateFields nested descriptor.asField force ⟨.object [(wholeField, v)], c⟩)
      (engine.validateWhole nested descriptor force ⟨v, c⟩) := by
  have hheld : Fields.get? [(wholeField, v)] wholeField = some v := by
    rw [Fields.get?_cons, if_pos rfl]
  obtain ⟨w, hkept⟩ :
      ∃ w, ((engine.judgeAsField nested descriptor force).leaves
        ⟨[(wholeField, v)], c⟩).target.get? wholeField = some w :=
    judgeAsField_kept engine nested descriptor force hheld
  have hread : ∀ r : Record, r.get? wholeField = some w → Fields.read r wholeField = w := by
    intro r hr
    rw [Fields.read, hr, Option.getD_some]
  rw [validateFields_asField, validateWhole_eq]
  cases hturn : engine.judgeAsField nested descriptor force ⟨[(wholeField, v)], c⟩ with
  | error e t =>
    rw [Run.leaves, hturn] at hkept
    have hfields : Run.focus recordOf withRecord (engine.judgeAsField nested descriptor force)
        ⟨.object [(wholeField, v)], c⟩ = .error e ⟨.object t.target, t.caller⟩ :=
      Run.focus_of_error hturn
    have hwhole : Run.focus (fun v => [(wholeField, v)])
        (fun _ record => Fields.read record wholeField)
        (engine.judgeAsField nested descriptor force) ⟨v, c⟩ =
          .error e ⟨Fields.read t.target wholeField, t.caller⟩ :=
      Run.focus_of_error hturn
    rw [Run.map_of_error _ hfields, Run.map_of_error _ hwhole, hread _ hkept]
    exact .failed hkept e t.caller
  | ok result t =>
    rw [Run.leaves, hturn] at hkept
    have hfields : Run.focus recordOf withRecord (engine.judgeAsField nested descriptor force)
        ⟨.object [(wholeField, v)], c⟩ = .ok result ⟨.object t.target, t.caller⟩ :=
      Run.focus_eq_ok.2 ⟨t, hturn, rfl⟩
    have hwhole : Run.focus (fun v => [(wholeField, v)])
        (fun _ record => Fields.read record wholeField)
        (engine.judgeAsField nested descriptor force) ⟨v, c⟩ =
          .ok result ⟨Fields.read t.target wholeField, t.caller⟩ :=
      Run.focus_eq_ok.2 ⟨t, hturn, rfl⟩
    rw [Run.map_of_ok _ hfields, Run.map_of_ok _ hwhole, hread _ hkept]
    cases result with
    | valid => exact .passed hkept t.caller
    | checked report => exact .reported hkept report t.caller

/-- Validation of a value as a whole is validation of the record that holds it as its only field,
unwrapped, with any modules: it ends in the same error, or it passes where the record passes, or it
reports the errors of the field; and in each case it leaves the value that the field holds in the
end. -/
theorem validate_whole (engine : Engine σ) (descriptor : Descriptor) (force : Bool) (v : Value)
    (c : σ) :
    Unwraps
      (engine.validate (.fields [(wholeField, .descriptor descriptor)]) force
        ⟨.object [(wholeField, v)], c⟩)
      (engine.validate (.whole descriptor) force ⟨v, c⟩) := by
  have hweight : (Rules.fields [(wholeField, .descriptor descriptor)]).weight =
      (Rules.whole descriptor).weight := Rules.weight_asField descriptor
  unfold validate
  rw [hweight]
  exact validateWhole_unwraps _ descriptor force v c

end Engine

end Vetting
