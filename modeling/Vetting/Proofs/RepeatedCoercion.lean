import Vetting.Proofs.DisplayedNumbers
import Vetting.Proofs.IntegerCoercion
import Vetting.Proofs.SimpleCoercions

/-!
# Coercing twice

The modules of a field run again whenever another field depends on it, so a coercion should have
nothing left to do the second time. Trimming, a plain default value and a title have not, nor has
the float module, which reads the number that it has put into the field as itself
(`Value.asFloat_asFloat`). The int module reads the text of its number, too, and makes the same
number of it, unless it was given an integer too small for 64 bits that is rounded to the least one
that fits (`coercedInteger_again_iff`): that double is displayed as an integer of 64 bits, which the
second run puts in its place.
-/

set_option autoImplicit false

namespace Vetting

open Pattern

-- No proof is to compute how many units make one.
seal unitsPerOne

/-- The integers too small for 64 bits that are rounded to the least one that fits. -/
def RoundsIntoRange (n : ℤ) : Prop := -9223372036854776832 ≤ n ∧ n < -9223372036854775808

instance (n : ℤ) : Decidable (RoundsIntoRange n) := inferInstanceAs (Decidable (_ ∧ _))

/-- A value whose text spells such an integer. -/
def Value.SpellsRoundedIntoRange (v : Value) : Prop :=
  ∃ text, Module.coercibleText? v = some text ∧ Pattern.int.accepts text = true ∧
    RoundsIntoRange (Text.integer text)

/-! ## The double of a large integer, displayed -/

/-- Doubles with the same sign and the same units are the same. -/
theorem Double.eq_of_units {d e : Double} (hnegative : e.negative = d.negative)
    (hunits : e.units = d.units) : e = d := by
  cases d
  cases e
  cases hnegative
  cases hunits
  rfl

section Large

variable {n : ℤ} {d : Double}

/-- The double of an integer that does not fit 64 bits is one that does exactly when it is the least
of those, and the integer is rounded to it. -/
theorem fitsSigned_toInt_iff (hlarge : ¬ FitsSigned n) (hd : Extended.ofInt n = .finite d) :
    FitsSigned d.toInt ↔ RoundsIntoRange n := by
  obtain ⟨hunits, hnegative⟩ := Extended.units_of_ofInt hd
  have hlow := Extended.two_pow_mul_le_units hlarge hd
  have hedge := nearestUnits_eq_two_pow_iff (lt_natAbs_of_not_fitsSigned hlarge)
  have hwhole := Nat.div_mul_cancel (Extended.large_of_ofInt hlarge hd).1
  rw [← hunits] at hedge
  rw [FitsSigned] at hlarge ⊢
  rw [Double.toInt, hnegative, RoundsIntoRange]
  generalize d.units / unitsPerOne = size at hwhole ⊢
  -- The size of the double is at least `2⁶³`, and is just that only next to it.
  rw [← hwhole] at hlow hedge
  have hlow : 2 ^ 63 ≤ size := Nat.le_of_mul_le_mul_right hlow unitsPerOne_pos
  rw [Nat.mul_right_cancel_iff unitsPerOne_pos] at hedge
  by_cases hneg : n < 0
  · simp only [hneg, decide_true, if_true]
    omega
  · simp only [hneg, decide_false, Bool.false_eq_true, if_false]
    omega

/-- The integer that a large one is rounded to is rounded to itself. -/
theorem ofInt_toInt (hlarge : ¬ FitsSigned n) (hd : Extended.ofInt n = .finite d) :
    Extended.ofInt d.toInt = .finite d := by
  have hlow := Extended.two_pow_mul_le_units hlarge hd
  have hone := unitsPerOne_pos
  have hsign : decide (d.toInt < 0) = d.negative := by
    have hpos : 0 < d.units / unitsPerOne := Nat.div_pos (by omega) hone
    rw [Double.toInt]
    cases d.negative with
    | false =>
      simp only [Bool.false_eq_true, if_false, decide_eq_false_iff_not]
      omega
    | true =>
      simp only [if_true, decide_eq_true_eq]
      omega
  obtain ⟨e, he, hunits, hnegative⟩ :=
    Extended.exists_ofInt_toInt (Extended.large_of_ofInt hlarge hd).1
  rw [he, Double.eq_of_units (hnegative.trans hsign) hunits]

/-- The double of a large integer is displayed as an integer of the int format, unless it is too
large even for that. -/
theorem displayed_of_large (hlarge : ¬ FitsSigned n) (hd : Extended.ofInt n = .finite d) :
    Pattern.int.accepts (Value.displayNumber (.double d)) = false ∧ ¬ FitsSigned d.toInt ∨
      Pattern.int.accepts (Value.displayNumber (.double d)) = true ∧
        Text.integer (Value.displayNumber (.double d)) = d.toInt := by
  have hdvd := (Extended.large_of_ofInt hlarge hd).1
  have hwhole : d.isIntegral = true := beq_iff_eq.2 (Nat.mod_eq_zero_of_dvd hdvd)
  have haccepts := (Value.accepts_displayNumber d).2 hwhole
  by_cases hscientific : d.Scientific
  · left
    refine ⟨Bool.eq_false_iff.2 fun h => haccepts.1 h hscientific, fun ⟨hlow, hhigh⟩ => ?_⟩
    have hsize : d.units ≤ 2 ^ 63 * unitsPerOne := by
      rw [← Nat.div_mul_cancel hdvd, ← d.natAbs_toInt]
      exact Nat.mul_le_mul_right _ (by omega)
    have hround := Extended.two_pow_mul_le_units hlarge hd
    have hone := unitsPerOne_pos
    rcases hscientific.2 with hsmall | hbeyond <;> omega
  · right
    refine ⟨haccepts.2 hscientific, ?_⟩
    rw [Value.displayNumber_of_plain hwhole hscientific, Module.integer_signed, Double.toInt]

end Large

/-- What an integer is coerced to stays when it is coerced again, unless the integer is too small
for 64 bits and is rounded to the least one that fits. -/
theorem coercedInteger_again_iff (n : ℤ) :
    (∀ text, Module.coercibleText? (Module.coercedInteger n) = some text →
        Pattern.int.accepts text = true →
          Module.coercedInteger (Text.integer text) = Module.coercedInteger n) ↔
      ¬ RoundsIntoRange n := by
  by_cases hfits : FitsSigned n
  · have hvalue : Module.coercedInteger n = .ofInt n := if_pos hfits
    have hnot : ¬ RoundsIntoRange n := by
      rw [FitsSigned] at hfits
      rw [RoundsIntoRange]
      omega
    refine iff_of_true (fun text htext _ => ?_) hnot
    rw [hvalue] at htext
    cases htext
    exact congrArg Module.coercedInteger (Module.integer_toString n)
  · rcases Module.coercedInteger_of_large hfits with ⟨d, hd, hvalue⟩ | ⟨hnone, hvalue⟩
    · rw [hvalue, ← fitsSigned_toInt_iff hfits hd]
      have hcoerced : Module.coercibleText? (.number (.double d)) =
          some (Value.displayNumber (.double d)) := rfl
      rcases displayed_of_large hfits hd with ⟨hrejected, hbeyond⟩ | ⟨haccepts, hinteger⟩
      · refine iff_of_true (fun text htext haccepts => ?_) hbeyond
        rw [hcoerced, Option.some.injEq] at htext
        rw [← htext, hrejected] at haccepts
        cases haccepts
      · simp only [hcoerced, Option.some.injEq, forall_eq', haccepts, hinteger, forall_const]
        by_cases hback : FitsSigned d.toInt
        · refine iff_of_false (fun hsame => ?_) (not_not_intro hback)
          rw [Module.coercedInteger, if_pos hback] at hsame
          cases hsame
        · refine iff_of_true ?_ hback
          rw [Module.coercedInteger, if_neg hback, ofInt_toInt hfits hd,
            (Extended.large_of_ofInt hfits hd).2]
    · have hnot : ¬ RoundsIntoRange n := by
        rintro ⟨hlow, hhigh⟩
        have hsize : n.natAbs * unitsPerOne ≤ (2 ^ 63 + 1024) * unitsPerOne :=
          Nat.mul_le_mul_right _ (by omega)
        have hbound := mul_unitsPerOne_le_overflowBound
        have hone := unitsPerOne_pos
        exact hnone (Extended.exists_ofInt_iff.2 (by omega))
      refine iff_of_true (fun text htext => ?_) hnot
      rw [hvalue] at htext
      cases htext

/-- A value is coerced to an integer once and for all, unless its text is of an integer that is too
small for 64 bits and is rounded to the least one that fits. -/
theorem Value.asInteger_again_iff (v : Value) :
    v.asInteger.asInteger = v.asInteger ↔ ¬ v.SpellsRoundedIntoRange := by
  have hcoerced : ∀ {v : Value} {text : String}, Module.coercibleText? v = some text →
      Pattern.int.accepts text = true →
        v.asInteger = Module.coercedInteger (Text.integer text) := by
    intro v text htext haccepts
    simp only [asInteger, htext, haccepts, if_true, Module.intOfText?_eq haccepts, Option.getD_some]
  have hkept : ∀ {v : Value}, (∀ text, Module.coercibleText? v = some text →
      Pattern.int.accepts text = false) → v.asInteger = v := by
    intro v hidle
    rw [asInteger]
    split
    · next text htext => rw [hidle text htext, if_neg Bool.false_ne_true]
    · rfl
  by_cases hspells : ∃ text, Module.coercibleText? v = some text ∧ Pattern.int.accepts text = true
  · obtain ⟨text, htext, haccepts⟩ := hspells
    have hrounded : v.SpellsRoundedIntoRange ↔ RoundsIntoRange (Text.integer text) := by
      refine ⟨?_, fun hrounded => ⟨text, htext, haccepts, hrounded⟩⟩
      rintro ⟨text', htext', -, hrounded⟩
      cases htext.symm.trans htext'
      exact hrounded
    rw [hrounded, ← coercedInteger_again_iff, hcoerced htext haccepts]
    constructor
    · intro hagain text' htext' haccepts'
      rwa [hcoerced htext' haccepts'] at hagain
    · intro hagain
      by_cases hnext : ∃ text', Module.coercibleText? (Module.coercedInteger (Text.integer text)) =
          some text' ∧ Pattern.int.accepts text' = true
      · obtain ⟨text', htext', haccepts'⟩ := hnext
        rw [hcoerced htext' haccepts', hagain text' htext' haccepts']
      · exact hkept fun text' htext' =>
          Bool.eq_false_iff.2 fun haccepts' => hnext ⟨text', htext', haccepts'⟩
  · have hidle : v.asInteger = v := hkept fun text htext =>
      Bool.eq_false_iff.2 fun haccepts => hspells ⟨text, htext, haccepts⟩
    rw [hidle]
    refine iff_of_true hidle ?_
    rintro ⟨text, htext, haccepts, -⟩
    exact hspells ⟨text, htext, haccepts⟩

/-- A result of arithmetic becomes no text. -/
theorem Value.ofExtended_ne_string (x : Extended) (text : String) :
    ofExtended x ≠ .string text := by
  cases x with
  | finite d =>
    rw [ofExtended]
    split <;> simp [ofInt]
  | infinite negative | undefined => simp [ofExtended]

/-- Coercion to an integer leaves a value alone, or makes something of it that is no text. -/
theorem Value.asInteger_cases (v : Value) :
    v.asInteger = v ∨ ∀ text, v.asInteger ≠ .string text := by
  rw [asInteger]
  split
  · next text _ =>
    by_cases haccepts : Pattern.int.accepts text = true
    · right
      rw [if_pos haccepts, Module.intOfText?_eq haccepts, Option.getD_some, Module.coercedInteger]
      split
      · simp [ofInt]
      · exact ofExtended_ne_string _
    · exact Or.inl (if_neg haccepts)
  · exact Or.inl rfl

/-- Coercion to a float leaves a value alone, or makes something of it that is no text. -/
theorem Value.asFloat_cases (v : Value) : v.asFloat = v ∨ ∀ text, v.asFloat ≠ .string text := by
  rw [asFloat]
  split
  · exact Or.inr (ofExtended_ne_string _)
  · exact Or.inl rfl

/-- A value is coerced to a float once and for all: what a number is displayed as is read as that
number again, and scientific text is not read at all. -/
theorem Value.asFloat_asFloat (v : Value) : v.asFloat.asFloat = v.asFloat := by
  cases hread : Module.floatOfValue? v with
  | none =>
    have hidle : v.asFloat = v := by rw [asFloat, hread]
    rw [hidle, hidle]
  | some x =>
    have hcoerced : v.asFloat = .ofExtended x := by rw [asFloat, hread]
    rw [hcoerced]
    by_cases hnumber : ∃ number, ofExtended x = .number number
    · obtain ⟨number, hnumber⟩ := hnumber
      rw [hnumber, asFloat, Module.floatOfValue?_number]
      by_cases haccepts : Pattern.float.accepts (displayNumber number) = true
      · rw [if_pos haccepts]
        exact ofExtended_toExtended hnumber
      · rw [if_neg haccepts]
    · have hnull : ofExtended x = .null := by
        refine Module.ofExtended_eq_null ?_
        rintro ⟨d, rfl⟩
        exact hnumber (Module.exists_number_of_finite d)
      rw [hnull]
      rfl

/-! ## Running a module again -/

/-- Only the plain value true is plainly true. -/
theorem Module.isPlainTrue_iff {config : Configuration} :
    isPlainTrue config = true ↔ config = .value (.bool true) := by
  cases config with
  | value v =>
    cases v with
    | bool b => simp [isPlainTrue]
    | _ => simp [isPlainTrue]
  | rules rules | function hook => simp [isPlainTrue]

/-- What is written into a field and leaves its content leaves the record. -/
theorem Fields.putIf_of_or {record : Record} {name : String} {written : Option Value}
    (h : written.or (record.get? name) = record.get? name) :
    record.putIf name written = record := by
  cases written with
  | none => rfl
  | some v => exact put_of_get? h.symm

namespace Engine

variable {σ : Type} (engine : Engine σ) (nested : NestedValidation σ) (field : String)
  (form : CanonicalForm)

/-- A module that brings the content of its field to what a fixed function makes of it, and always
hands back the same, changes nothing when it runs again, if applying that function again does
not. -/
theorem runModule_again_of_writes {module : Module σ} {config : Configuration}
    {out : Option Contribution} {content : Option Value → Option Value}
    (hcontent : ∀ x, content (content x) = content x)
    (hwrites : ∀ (scope : Scope σ) (c : σ) (x : Option Value), scope.value = x.getD .null →
      ∃ written, module config scope ⟨none, c⟩ = .ok out ⟨written, c⟩ ∧ written.or x = content x)
    (s : Store Record σ) :
    ∃ t, engine.runModule nested field form config module s = .ok out t ∧
      engine.runModule nested field form config module t = .ok out t := by
  obtain ⟨first, hfirst, hbrought⟩ := hwrites
    ⟨field, form, engine.settings.strict, s.target, engine.announced nested⟩ s.caller
    (s.target.get? field) rfl
  refine ⟨_, runModule_eq_ok_iff.2 ⟨_, hfirst, rfl⟩, ?_⟩
  obtain ⟨second, hsecond, hstays⟩ := hwrites
    ⟨field, form, engine.settings.strict, s.target.putIf field first, engine.announced nested⟩
    s.caller ((s.target.putIf field first).get? field) rfl
  refine runModule_eq_ok_iff.2 ⟨_, hsecond, ?_⟩
  rw [Fields.get?_putIf_self, hbrought, hcontent, ← hbrought, ← Fields.get?_putIf_self] at hstays
  rw [Fields.putIf_of_or hstays]

/-- The int module does nothing unless its configuration is true and the plain text of the field has
the int format. -/
theorem runModule_int_idle {config : Configuration} {s : Store Record σ}
    (h : config = .value (.bool true) → ∀ text,
      Module.coercibleText? (s.target.read field) = some text → Pattern.int.accepts text = false) :
    engine.runModule nested field form config Module.int s = .ok none s := by
  refine runModule_eq_ok_iff.2 ⟨⟨none, s.caller⟩, ?_, rfl⟩
  have hvalue : (⟨field, form, engine.settings.strict, s.target, engine.announced nested⟩ :
      Scope σ).value = s.target.read field := rfl
  unfold Module.int
  rw [hvalue]
  by_cases hon : Module.isPlainTrue config = true
  · rw [if_pos hon]
    cases htext : Module.coercibleText? (s.target.read field) with
    | none => rfl
    | some text =>
      simp only [h (Module.isPlainTrue_iff.1 hon) text htext, Bool.false_eq_true, if_false]
      rfl
  · rw [if_neg hon]
    rfl

/-- The int module leaves a record alone exactly when the value that it makes of the field, if it
makes any, is there already. -/
theorem runModule_int_eq_self_iff {s : Store Record σ} {v : Value}
    (hget : s.target.get? field = some v) :
    engine.runModule nested field form (.value (.bool true)) Module.int s = .ok none s ↔
      ∀ text, Module.coercibleText? v = some text → Pattern.int.accepts text = true →
        Module.coercedInteger (Text.integer text) = v := by
  have hread : s.target.read field = v := by
    rw [Fields.read, hget, Option.getD_some]
  by_cases hcoerced : ∃ text, Module.coercibleText? v = some text ∧ Pattern.int.accepts text = true
  · obtain ⟨text, htext, haccepts⟩ := hcoerced
    have hrun := runModule_int_of_accepts engine nested field form (hread ▸ htext) haccepts
    rw [hrun]
    constructor
    · intro hsame text' htext' _
      cases htext.symm.trans htext'
      injection hsame with _ hstore
      have hlook := congrArg (fun u : Store Record σ => u.target.get? field) hstore
      simp only [Fields.get?_put_self, hget, Option.some.injEq] at hlook
      exact hlook
    · intro hsame
      rw [hsame text htext haccepts, Fields.put_of_get? hget]
  · refine iff_of_true (runModule_int_idle engine nested field form ?_) ?_
    · intro _ text htext
      rw [hread] at htext
      exact Bool.eq_false_iff.2 fun haccepts => hcoerced ⟨text, htext, haccepts⟩
    · exact fun text htext haccepts => absurd ⟨text, htext, haccepts⟩ hcoerced

/-- The int module runs to the end, and running it again changes nothing, unless it has been given a
text of an integer that is too small for 64 bits and is rounded to the least one that fits. -/
theorem runModule_int_again (config : Configuration) (s : Store Record σ) :
    ∃ t, engine.runModule nested field form config Module.int s = .ok none t ∧
      (engine.runModule nested field form config Module.int t = .ok none t ↔
        ¬ (config = .value (.bool true) ∧ (s.target.read field).SpellsRoundedIntoRange)) := by
  by_cases hcoerced : config = .value (.bool true) ∧ ∃ text,
      Module.coercibleText? (s.target.read field) = some text ∧ Pattern.int.accepts text = true
  · obtain ⟨rfl, text, htext, haccepts⟩ := hcoerced
    refine ⟨_, runModule_int_of_accepts engine nested field form htext haccepts, ?_⟩
    rw [runModule_int_eq_self_iff engine nested field form (Fields.get?_put_self _ _ _),
      coercedInteger_again_iff, not_iff_not]
    constructor
    · intro hrounded
      exact ⟨rfl, text, htext, haccepts, hrounded⟩
    · rintro ⟨-, text', htext', -, hrounded⟩
      cases htext.symm.trans htext'
      exact hrounded
  · have hidle : engine.runModule nested field form config Module.int s = .ok none s := by
      refine runModule_int_idle engine nested field form fun hon text htext => ?_
      exact Bool.eq_false_iff.2 fun haccepts => hcoerced ⟨hon, text, htext, haccepts⟩
    refine ⟨s, hidle, iff_of_true hidle ?_⟩
    rintro ⟨hon, text, htext, haccepts, -⟩
    exact hcoerced ⟨hon, text, htext, haccepts⟩

/-- The modules that trim, put in a plain default value, coerce to an integer and hand on a title
run to the end. Running one again with the same configuration changes nothing and hands back the
same, unless it is the int module and has been given a text of an integer that is too small for 64
bits and is rounded to the least one that fits. -/
theorem runModule_again {name : String} {module : Module σ} {config : Configuration}
    (hget : (KnownModules.builtin : KnownModules σ).get? name = some module)
    (hname : name = "trimValue" ∨ (name = "defaultValue" ∧ ∃ d, config = .value d) ∨ name = "int" ∨
      name = "title") (s : Store Record σ) :
    ∃ out t, engine.runModule nested field form config module s = .ok out t ∧
      (engine.runModule nested field form config module t = .ok out t ↔
        ¬ (name = "int" ∧ config = .value (.bool true) ∧
          (s.target.read field).SpellsRoundedIntoRange)) := by
  rcases hname with rfl | ⟨rfl, d, rfl⟩ | rfl | rfl
  · cases hget
    have hwrites : ∀ (scope : Scope σ) (c : σ) (x : Option Value), scope.value = x.getD .null →
        ∃ written, Module.trimValue config scope ⟨none, c⟩ = .ok none ⟨written, c⟩ ∧
          written.or x = (if config.isEnabled then Coercion.trim else .keep).apply x := by
      intro scope c x hvalue
      obtain ⟨written, hrun, hwritten⟩ := Module.trimValue_writes config scope c hvalue
      refine ⟨written, hrun, hwritten.trans ?_⟩
      split <;> rfl
    obtain ⟨t, hfirst, hsecond⟩ := runModule_again_of_writes engine nested field form
      (Coercion.apply_apply _) hwrites s
    exact ⟨none, t, hfirst, iff_of_true hsecond (by simp)⟩
  · cases hget
    obtain ⟨t, hfirst, hsecond⟩ := runModule_again_of_writes engine nested field form
      (Coercion.apply_apply (.default d))
      (fun scope c x hvalue => Module.defaultValue_writes d scope c hvalue) s
    exact ⟨none, t, hfirst, iff_of_true hsecond (by simp)⟩
  · cases hget
    obtain ⟨t, hfirst, hsecond⟩ := runModule_int_again engine nested field form config s
    exact ⟨none, t, hfirst, by simpa using hsecond⟩
  · cases hget
    have hwrites : ∀ (scope : Scope σ) (c : σ) (x : Option Value), scope.value = x.getD .null →
        ∃ written, Module.title config scope ⟨none, c⟩ =
            .ok (config.value?.map .aux) ⟨written, c⟩ ∧
          written.or x = Coercion.keep.apply x :=
      fun _ _ _ _ => ⟨none, rfl, rfl⟩
    obtain ⟨t, hfirst, hsecond⟩ := runModule_again_of_writes engine nested field form
      (Coercion.apply_apply .keep) hwrites s
    exact ⟨config.value?.map .aux, t, hfirst, iff_of_true hsecond (by simp)⟩

/-- The double of an integer beyond 64 bits stays when the int module runs again. -/
theorem runModule_again_large :
    ∃ out t, (standard : Engine Unit).runModule standard.validate "n" ⟨[], []⟩ (.value (.bool true))
        Module.int ⟨[("n", .string "18446744073709551617")], ()⟩ = .ok out t ∧
      (standard : Engine Unit).runModule standard.validate "n" ⟨[], []⟩ (.value (.bool true))
        Module.int t = .ok out t := by
  obtain ⟨out, t, hfirst, hsecond⟩ := @runModule_again Unit standard standard.validate "n" ⟨[], []⟩
    "int" Module.int (.value (.bool true)) rfl (by simp)
    ⟨[("n", .string "18446744073709551617")], ()⟩
  refine ⟨out, t, hfirst, hsecond.2 ?_⟩
  rintro ⟨-, -, text, htext, -, hrounded⟩
  cases htext
  exact absurd hrounded (by decide)

/-- The text of `-2⁶³ - 1` is coerced to the double of `-2⁶³`, and when the int module runs again to
the integer. -/
theorem runModule_again_least :
    ∃ out t, (standard : Engine Unit).runModule standard.validate "n" ⟨[], []⟩ (.value (.bool true))
        Module.int ⟨[("n", .string "-9223372036854775809")], ()⟩ = .ok out t ∧
      (standard : Engine Unit).runModule standard.validate "n" ⟨[], []⟩ (.value (.bool true))
        Module.int t ≠ .ok out t := by
  have hspells : Value.SpellsRoundedIntoRange (.string "-9223372036854775809") :=
    ⟨_, rfl, by decide, by decide⟩
  obtain ⟨t, hfirst, hsecond⟩ := runModule_int_again (standard : Engine Unit) standard.validate "n"
    ⟨[], []⟩ (.value (.bool true)) ⟨[("n", .string "-9223372036854775809")], ()⟩
  exact ⟨none, t, hfirst, fun hsame => hsecond.1 hsame ⟨rfl, hspells⟩⟩

end Engine

end Vetting
