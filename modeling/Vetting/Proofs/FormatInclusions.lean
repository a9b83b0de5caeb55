import Vetting.Proofs.IntegerCoercion
import Vetting.Proofs.NamedPatterns
import Vetting.Proofs.ValueComparison
import Mathlib.Order.CompletePartialOrder

/-!
# Formats within formats

Some formats only ask for less than others: a sign that may be left out, decimals that may be left
out, a scheme that may be left out. So the languages of the digits, of integers and of decimals are
included in one another, and that of addresses in that of short addresses.

A text of the format of decimals, with its comma turned into a point, is a numeral of the grammar
that doubles are read by, and it never spells the undefined number. Hence the coercing modules do
not leave a text alone because it cannot be read: a field whose text has the format of the module
holds what the text is read as in the end (`Engine.runModule_parses`).
-/

set_option autoImplicit false

namespace Vetting

-- No proof is to compute how many units make one.
seal unitsPerOne

/-! ## Inclusions of languages -/

namespace Format

/-- What a format has without an option it has with it, left out. -/
theorem le_optional_mul (l m : Language Char) : l ≤ optional m * l := by
  intro cs hcs
  exact Language.mem_mul.2 ⟨[], Or.inr rfl, cs, hcs, rfl⟩

/-- What a format has behind an option it has with it, put in. -/
theorem mul_le_optional_mul (l m : Language Char) : m * l ≤ optional m * l := by
  intro cs hcs
  obtain ⟨first, hfirst, second, hsecond, rfl⟩ := Language.mem_mul.1 hcs
  exact Language.mem_mul.2 ⟨first, Or.inl hfirst, second, hsecond, rfl⟩

/-- Digits have the int format. -/
theorem languageOf_digits_le : languageOf .digits ≤ languageOf .int :=
  le_optional_mul _ _

/-- A full address has the format of short ones. -/
theorem languageOf_url_le : languageOf .url ≤ languageOf .shortUrl :=
  mul_le_optional_mul _ _

end Format

namespace Pattern

/-- A format whose language is included in that of another one has only texts of the other one. -/
theorem accepts_of_languageOf_le {narrow wide : Pattern}
    (hle : Format.languageOf narrow ≤ Format.languageOf wide) {text : String}
    (h : narrow.accepts text = true) : wide.accepts text = true := by
  rw [accepts, Expression.accepts_iff_mem_language, language_expression] at h ⊢
  exact hle h

end Pattern

/-! ## What a text of a number format is read as -/

/-- A decimal is no undefined number. -/
theorem Decimal.toExtended_ne_undefined (d : Decimal) : d.toExtended ≠ .undefined := by
  rw [toExtended]
  dsimp only
  split
  · exact Extended.ofUnits_ne_undefined _ _ _
  · split
    · split
      · simp
      · exact Extended.ofUnits_ne_undefined _ _ _
    · split
      · exact Extended.ofUnits_ne_undefined _ _ _
      · exact Extended.ofUnits_ne_undefined _ _ _

namespace Module

/-- A text of the float format spells a number, if perhaps one beyond all doubles. -/
theorem floatOfText?_defined {text : String} (h : Pattern.float.accepts text = true) :
    ∃ x, floatOfText? text = some x ∧ x ≠ .undefined := by
  obtain ⟨sign, digits, fraction, htext, hsign, hdigits, hfraction⟩ :=
    Pattern.float_accepts_iff.1 h
  exact ⟨_, floatOfText?_numeral htext hsign hdigits hfraction, Decimal.toExtended_ne_undefined _⟩

/-- What a double or an infinity is as a value: a number, or null for want of one. -/
theorem kind_ofExtended (x : Extended) :
    (Value.ofExtended x).kind = .number ∨ (Value.ofExtended x).kind = .null := by
  cases x with
  | finite d =>
    obtain ⟨number, hnumber⟩ := exists_number_of_finite d
    rw [hnumber]
    exact Or.inl rfl
  | infinite | undefined => exact Or.inr rfl

/-- An integer is coerced to a number or to null. -/
theorem kind_coercedInteger (n : ℤ) :
    (coercedInteger n).kind = .number ∨ (coercedInteger n).kind = .null := by
  rw [coercedInteger]
  split
  · exact Or.inl rfl
  · exact kind_ofExtended _

end Module

namespace Engine

variable {σ : Type}

/-- The float module puts the number that a text spells into its field. -/
theorem runModule_float_of_accepts (engine : Engine σ) (nested : NestedValidation σ)
    (field : String) (form : CanonicalForm) {s : Store Record σ} {text : String}
    (htext : Module.coercibleText? (s.target.read field) = some text)
    (haccepts : Pattern.float.accepts text = true) {x : Extended}
    (hread : Module.floatOfText? text = some x) :
    engine.runModule nested field form (.value (.bool true)) Module.float s =
      .ok none ⟨s.target.put field (.ofExtended x), s.caller⟩ := by
  refine runModule_eq_ok_iff.2 ⟨⟨some (.ofExtended x), s.caller⟩, ?_, rfl⟩
  have hnumber : Module.floatOfValue? (⟨field, form, engine.settings.strict, s.target,
      engine.announced nested⟩ : Scope σ).value = some x := by
    have hvalue : Module.coercibleText? (⟨field, form, engine.settings.strict, s.target,
      engine.announced nested⟩ : Scope σ).value = some text := htext
    simp only [Module.floatOfValue?, hvalue, haccepts, hread, if_true]
  unfold Module.float
  rw [hnumber]
  rfl

/-- Digits are an integer, an integer is a decimal, and an address is a short address. Every decimal
is read as a number, and so the int and the float module write a number into a field whose text has
their format, or null if the number is beyond all doubles. -/
theorem runModule_parses (engine : Engine σ) (nested : NestedValidation σ) (field : String)
    (form : CanonicalForm) (s : Store Record σ) (text : String) :
    (Pattern.digits.accepts text = true → Pattern.int.accepts text = true) ∧
    (Pattern.int.accepts text = true → Pattern.float.accepts text = true) ∧
    (Pattern.url.accepts text = true → Pattern.shortUrl.accepts text = true) ∧
    (Pattern.float.accepts text = true →
      ∃ x, Module.floatOfText? text = some x ∧ x ≠ .undefined) ∧
    (Module.coercibleText? (s.target.read field) = some text →
      (Pattern.int.accepts text = true →
        ∃ v, Module.intOfText? text = some v ∧ (v.kind = .number ∨ v.kind = .null) ∧
          engine.runModule nested field form (.value (.bool true)) Module.int s =
            .ok none ⟨s.target.put field v, s.caller⟩) ∧
      (Pattern.float.accepts text = true →
        ∃ x, Module.floatOfText? text = some x ∧
          ((Value.ofExtended x).kind = .number ∨ (Value.ofExtended x).kind = .null) ∧
          engine.runModule nested field form (.value (.bool true)) Module.float s =
            .ok none ⟨s.target.put field (.ofExtended x), s.caller⟩)) := by
  refine ⟨Pattern.accepts_of_languageOf_le Format.languageOf_digits_le,
    Pattern.float_accepts_of_int, Pattern.accepts_of_languageOf_le Format.languageOf_url_le,
    Module.floatOfText?_defined, fun htext => ⟨fun haccepts => ?_, fun haccepts => ?_⟩⟩
  · exact ⟨_, Module.intOfText?_eq haccepts, Module.kind_coercedInteger _,
      runModule_int_of_accepts engine nested field form htext haccepts⟩
  · obtain ⟨x, hread, -⟩ := Module.floatOfText?_defined haccepts
    exact ⟨x, hread, Module.kind_ofExtended x,
      runModule_float_of_accepts engine nested field form htext haccepts hread⟩

/-- Leading zeros do no harm to digits as a decimal, an address with its scheme is a short address,
and a comma before the decimals is read as a point. -/
theorem runModule_parses_comma :
    Pattern.digits.accepts "007" = true ∧ Pattern.float.accepts "007" = true ∧
    Pattern.url.accepts "http://a.bc/" = true ∧ Pattern.shortUrl.accepts "http://a.bc/" = true ∧
    Pattern.float.accepts "-3,50" = true ∧
    ∃ x, Module.floatOfText? "-3,50" = some x ∧ x ≠ .undefined ∧
      (standard : Engine Unit).runModule standard.validate "price" ⟨[], []⟩ (.value (.bool true))
          Module.float ⟨[("price", .string "-3,50")], ()⟩ =
        .ok none ⟨[("price", .ofExtended x)], ()⟩ := by
  have hdigits : Pattern.digits.accepts "007" = true := by decide
  have hurl : Pattern.url.accepts "http://a.bc/" = true := by decide +kernel
  have hfloat : Pattern.float.accepts "-3,50" = true := by decide +kernel
  have hall := fun text => runModule_parses (standard : Engine Unit) standard.validate "price"
    ⟨[], []⟩ ⟨[("price", .string "-3,50")], ()⟩ text
  obtain ⟨hint, hdecimal, -⟩ := hall "007"
  obtain ⟨-, -, hshort, -⟩ := hall "http://a.bc/"
  obtain ⟨-, -, -, hdefined, hcoerced⟩ := hall "-3,50"
  obtain ⟨x, hx, hne⟩ := hdefined hfloat
  obtain ⟨y, hy, -, hrun⟩ := (hcoerced rfl).2 hfloat
  obtain rfl : x = y := Option.some.inj (hx.symm.trans hy)
  exact ⟨hdigits, hdecimal (hint hdigits), hurl, hshort hurl, hfloat, x, hx, hne, hrun⟩

end Engine

end Vetting
