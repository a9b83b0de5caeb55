import Vetting.Proofs.ModuleLocality
import Vetting.Proofs.Numerals

/-!
# Coercion to an integer

A text of the int format may spell any integer, but the numbers of values are integers of 64 bits
and doubles. The int module makes an integer of the text if it fits 64 bits with a sign, and goes by
the double that it is rounded to otherwise (`Module.intOfText?_eq`). So the field keeps every
integer that fits, and every other one that is a double; of the rest it gets a nearest double, as
long as there is one in range, and null from there on (`Module.CoercesInteger`).
-/

set_option autoImplicit false

namespace Vetting

open Pattern

-- No proof is to compute how many units make one, or where doubles end.
seal unitsPerOne overflowBound

/-- An integer that fits 64 bits without a sign. -/
def FitsUnsigned (n : ℤ) : Prop := 0 ≤ n ∧ n ≤ 18446744073709551615

instance (n : ℤ) : Decidable (FitsUnsigned n) := inferInstanceAs (Decidable (_ ∧ _))

/-- Whether a number is an integer, numerically: a double may be one, too. -/
def Number.Denotes (n : ℤ) : Number → Prop
  | .int m => m = n
  | .double d => d.signedUnits = n * unitsPerOne

/-! ## Integers that are doubles -/

/-- A double that is an integer has as many units as the integer has ones, times those of a one. -/
theorem Double.units_of_signedUnits {n : ℤ} {d : Double} (h : d.signedUnits = n * unitsPerOne) :
    d.units = n.natAbs * unitsPerOne := by
  have habs := congrArg Int.natAbs h
  rw [Int.natAbs_mul, Int.natAbs_natCast] at habs
  rw [← habs, signedUnits]
  split <;> omega

/-- An integer that is a double is rounded to that double. -/
theorem Extended.ofInt_of_signedUnits {n : ℤ} {e : Double} (h : e.signedUnits = n * unitsPerOne) :
    ∃ d, ofInt n = .finite d ∧ d.signedUnits = n * unitsPerOne := by
  have hbelow := e.units_lt_overflowBound
  rw [Double.units_of_signedUnits h] at hbelow
  obtain ⟨d, hd⟩ := exists_ofInt_iff.2 hbelow
  have hnearest := Double.isNearest_ofInt hd e
  rw [h, Int.sub_self, Int.natAbs_zero] at hnearest
  exact ⟨d, hd, by omega⟩

namespace Module

/-- What a coercion may make of an integer: of one that fits 64 bits with a sign that integer, of
any other that is a double a number that denotes it, of any other that is beyond all integers of 64
bits a double that is nearest to it, and null where doubles have ended. -/
structure CoercesInteger (n : ℤ) (v : Value) : Prop where
  small : FitsSigned n → v = .ofInt n
  double : (∃ d : Double, d.signedUnits = n * unitsPerOne) →
    ∃ number, v = .number number ∧ number.Denotes n
  rounded : ¬ FitsSigned n → ¬ FitsUnsigned n → n.natAbs * unitsPerOne < overflowBound →
    ∃ d, v = .number (.double d) ∧ d.IsNearest n
  beyond : overflowBound ≤ n.natAbs * unitsPerOne → v = .null

/-- An integer that does not fit 64 bits is coerced to its double, or to null if it has none. -/
theorem coercedInteger_of_large {n : ℤ} (h : ¬ FitsSigned n) :
    (∃ d, Extended.ofInt n = .finite d ∧ coercedInteger n = .number (.double d)) ∨
      (¬ ∃ d, Extended.ofInt n = .finite d) ∧ coercedInteger n = .null := by
  rw [coercedInteger, if_neg h]
  by_cases hfinite : ∃ d, Extended.ofInt n = .finite d
  · left
    obtain ⟨d, hd⟩ := hfinite
    exact ⟨d, hd, by rw [hd, (Extended.large_of_ofInt h hd).2]⟩
  · right
    exact ⟨hfinite, ofExtended_eq_null hfinite⟩

/-- What an integer is coerced to is what it may be coerced to. -/
theorem coercesInteger (n : ℤ) : CoercesInteger n (coercedInteger n) := by
  refine ⟨fun hfits => if_pos hfits, ?_, fun hlarge _ hbelow => ?_, fun hbeyond => ?_⟩
  · rintro ⟨e, he⟩
    by_cases hfits : FitsSigned n
    · exact ⟨.int n, if_pos hfits, rfl⟩
    · obtain ⟨d, hd, hsigned⟩ := Extended.ofInt_of_signedUnits he
      rcases coercedInteger_of_large hfits with ⟨d', hd', hvalue⟩ | ⟨hnone, -⟩
      · cases hd.symm.trans hd'
        exact ⟨.double d, hvalue, hsigned⟩
      · exact absurd ⟨d, hd⟩ hnone
  · rcases coercedInteger_of_large hlarge with ⟨d, hd, hvalue⟩ | ⟨hnone, -⟩
    · exact ⟨d, hvalue, Double.isNearest_ofInt hd⟩
    · exact absurd (Extended.exists_ofInt_iff.2 hbelow) hnone
  · have hlarge : ¬ FitsSigned n := by
      rintro ⟨hlow, hhigh⟩
      have hsize : n.natAbs * unitsPerOne ≤ 2 ^ 63 * unitsPerOne :=
        Nat.mul_le_mul_right _ (by omega)
      have hbound := mul_unitsPerOne_le_overflowBound
      have hone := unitsPerOne_pos
      omega
    rcases coercedInteger_of_large hlarge with ⟨d, hd, -⟩ | ⟨-, hvalue⟩
    · exact absurd (Extended.exists_ofInt_iff.1 ⟨d, hd⟩) (Nat.not_lt.2 hbeyond)
    · exact hvalue

/-! ## The text of an integer -/

/-- Digits, with a minus before them or without, read back as the integer that they were written
for. -/
theorem integer_signed (negative : Bool) (n : Nat) :
    Text.integer ((if negative then "-" else "") ++ toString n) =
      if negative then -(n : ℤ) else n := by
  rw [Text.integer_whole (toList_signed negative n) (isSign_ite negative) (isDigits_toString n),
    Decimal.digitsValue_toString]
  cases negative <;> rfl

/-- The text of an integer reads back as that integer. -/
theorem integer_toString (n : ℤ) : Text.integer (toString n) = n := by
  cases n with
  | ofNat n =>
    have hread := integer_signed false n
    rwa [if_neg Bool.false_ne_true, String.empty_append] at hread
  | negSucc n => exact integer_signed true (n + 1)

/-! ## The module -/

/-- Strings and numbers may be coerced, by their plain text. -/
theorem coercibleText?_of_kind {v : Value} (hkind : v.kind = .string ∨ v.kind = .number) :
    coercibleText? v = some v.display := by
  cases v with
  | string text => rfl
  | number number => rfl
  | null | bool | array | object => simp [Value.kind] at hkind

end Module

/-- A field that reads as something but null is there. -/
theorem Fields.get?_of_read {record : Record} {name : String} {v : Value}
    (h : record.read name = v) (hv : v ≠ .null) : record.get? name = some v := by
  rw [read] at h
  cases hget : record.get? name with
  | none =>
    rw [hget] at h
    exact absurd h.symm hv
  | some w =>
    rw [hget] at h
    exact congrArg some h

namespace Engine

variable {σ : Type}

/-- The int module puts what an integer is coerced to into a field whose text spells it. -/
theorem runModule_int_of_accepts (engine : Engine σ) (nested : NestedValidation σ) (field : String)
    (form : CanonicalForm) {s : Store Record σ} {text : String}
    (htext : Module.coercibleText? (s.target.read field) = some text)
    (haccepts : Pattern.int.accepts text = true) :
    engine.runModule nested field form (.value (.bool true)) Module.int s =
      .ok none ⟨s.target.put field (Module.coercedInteger (Text.integer text)), s.caller⟩ := by
  refine runModule_eq_ok_iff.2
    ⟨⟨some (Module.coercedInteger (Text.integer text)), s.caller⟩, ?_, rfl⟩
  have hvalue : Module.coercibleText? (⟨field, form, engine.settings.strict, s.target,
      engine.announced nested⟩ : Scope σ).value = some text := htext
  unfold Module.int
  simp only [hvalue, haccepts, Module.intOfText?_eq haccepts, if_true]
  rfl

/-- On a field with a string or a number whose plain text has the int format, the int module runs to
the end and writes what the integer is coerced to into the field. A field that holds an integer that
fits 64 bits with a sign keeps it. -/
theorem runModule_int (engine : Engine σ) (nested : NestedValidation σ) (field : String)
    (form : CanonicalForm) {s : Store Record σ}
    (hkind : (s.target.read field).kind = .string ∨ (s.target.read field).kind = .number)
    (haccepts : Pattern.int.accepts (s.target.read field).display = true) :
    ∃ v, engine.runModule nested field form (.value (.bool true)) Module.int s =
        .ok none ⟨s.target.put field v, s.caller⟩ ∧
      Module.CoercesInteger (Text.integer (s.target.read field).display) v ∧
      ∀ n, FitsSigned n → s.target.read field = .ofInt n → s.target.put field v = s.target := by
  refine ⟨_, runModule_int_of_accepts engine nested field form (Module.coercibleText?_of_kind hkind)
    haccepts, Module.coercesInteger _, fun n hfits hread => ?_⟩
  have hinteger : Text.integer (s.target.read field).display = n := by
    rw [hread]
    exact Module.integer_toString n
  rw [hinteger, Module.coercedInteger, if_pos hfits]
  exact Fields.put_of_get? (Fields.get?_of_read hread (by simp [Value.ofInt]))

/-- Leading zeros, and a plus, are lost; the integer stays. -/
theorem runModule_int_padded :
    ∃ v, (standard : Engine Unit).runModule standard.validate "n" ⟨[], []⟩ (.value (.bool true))
        Module.int ⟨[("n", .string "+007")], ()⟩ = .ok none ⟨[("n", v)], ()⟩ ∧
      v = .ofInt 7 := by
  obtain ⟨v, hrun, hcoerced, -⟩ := @runModule_int Unit standard standard.validate "n" ⟨[], []⟩
    ⟨[("n", .string "+007")], ()⟩ (Or.inl rfl) (by decide)
  exact ⟨v, hrun, hcoerced.small (by decide)⟩

/-- The text of `2⁶⁴ + 1` is coerced to a double that is another number. -/
theorem runModule_int_inexact :
    Pattern.int.accepts "18446744073709551617" = true ∧
    Text.integer "18446744073709551617" = 18446744073709551617 ∧
    ∃ t, (standard : Engine Unit).runModule standard.validate "n" ⟨[], []⟩ (.value (.bool true))
        Module.int ⟨[("n", .string "18446744073709551617")], ()⟩ = .ok none t ∧
      ¬ ∃ number, t.target.read "n" = .number number ∧
        number.Denotes 18446744073709551617 := by
  have haccepts : Pattern.int.accepts "18446744073709551617" = true := by decide
  have hinteger : Text.integer "18446744073709551617" = 18446744073709551617 := by decide
  have hrun := runModule_int_of_accepts (standard : Engine Unit) standard.validate "n" ⟨[], []⟩
    (s := ⟨[("n", .string "18446744073709551617")], ()⟩) rfl haccepts
  refine ⟨haccepts, hinteger, _, hrun, ?_⟩
  rw [hinteger]
  -- It would take 65 bits to write the integer as a double.
  have hrounded : nearestUnits ((18446744073709551617 : ℤ).natAbs * unitsPerOne) 1 ≠
      (18446744073709551617 : ℤ).natAbs * unitsPerOne := by
    decide +kernel
  rintro ⟨number, hread, hdenotes⟩
  rw [Fields.read, Fields.get?_put_self, Option.getD_some] at hread
  rcases Module.coercedInteger_of_large (n := 18446744073709551617) (by decide) with
    ⟨d, -, hvalue⟩ | ⟨-, hvalue⟩
  · rw [hvalue, Value.number.injEq] at hread
    rw [← hread] at hdenotes
    have hround := nearestUnits_of_representable d.representable
    rw [Double.units_of_signedUnits hdenotes] at hround
    exact hrounded hround
  · rw [hvalue] at hread
    cases hread

end Engine

end Vetting
