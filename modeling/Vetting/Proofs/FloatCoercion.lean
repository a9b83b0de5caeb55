import Vetting.Proofs.ModuleLocality
import Vetting.Proofs.Numerals

/-!
# Coercion to a float

A text of the float format may spell any decimal, but the numbers of values that are no integers are
doubles. A text out of the range of doubles is coerced to null, which is what stands for a number
that a value cannot hold; rounding to decimal places multiplies the number before it is rounded, and
needs that much room in the range. With that room the field holds a number in the end, unless the
rounding is switched off, when the text stays (`Engine.runModule_float`).
-/

set_option autoImplicit false

namespace Vetting

open Pattern

-- No proof is to compute how many units make one, or where doubles end.
seal unitsPerOne overflowBound

/-! ## The range of a text -/

namespace Text

/-- How many characters of a text stand behind the first point or comma. -/
def places (text : String) : Nat :=
  (text.toList.dropWhile fun c => !(c == '.' || c == ',')).tail.length

/-- In a numeral the digits behind the point or the comma are counted. -/
theorem places_numeral {text : String} {sign digits fraction : List Char}
    (htext : text.toList = sign ++ (digits ++ fraction)) (hsign : IsSign sign)
    (hdigits : IsDigits digits) (hfraction : IsFraction fraction) :
    places text = fraction.tail.length := by
  have hbefore : ∀ c ∈ sign ++ digits, (!(c == '.' || c == ',')) = true := by
    intro c hc
    rcases List.mem_append.1 hc with hc | hc
    · rcases hsign with rfl | rfl | rfl
      · cases hc
      · rw [List.mem_singleton.1 hc]
        rfl
      · rw [List.mem_singleton.1 hc]
        rfl
    · have hdigit := hdigits.2 c hc
      have hmark : c ≠ '.' ∧ c ≠ ',' := by
        constructor <;> rintro rfl <;> exact absurd hdigit (by decide)
      simp [hmark]
  have hdrop : fraction.dropWhile (fun c => !(c == '.' || c == ',')) = fraction := by
    rcases hfraction with rfl | ⟨mark, decimals, rfl, rfl | rfl, -⟩ <;> rfl
  rw [places, htext, ← List.append_assoc, List.dropWhile_append_of_pos hbefore, hdrop]

/-- A text whose decimal is half a step below the limit of doubles, or farther from zero. -/
def OutOfRange (text : String) : Prop :=
  overflowBound * 10 ^ places text ≤ digitsNumber text * unitsPerOne

instance (text : String) : Decidable (OutOfRange text) := inferInstanceAs (Decidable (_ ≤ _))

/-- A text whose decimal is in the range of doubles, and so is its double times a power of ten. -/
def HasRoom (text : String) (places : Nat) : Prop :=
  ∃ d, Module.floatOfText? text = some (.finite d) ∧ d.units * 10 ^ places < overflowBound

instance (text : String) (places : Nat) : Decidable (HasRoom text places) :=
  match hread : Module.floatOfText? text with
  | some (.finite d) =>
    decidable_of_iff (d.units * 10 ^ places < overflowBound)
      ⟨fun h => ⟨d, hread, h⟩, fun ⟨_, hd, h⟩ => by
        rw [hread] at hd
        cases hd
        exact h⟩
  | some (.infinite _) | some .undefined | none =>
    isFalse fun ⟨_, hd, _⟩ => by
      rw [hread] at hd
      cases hd

/-- A text of the float format is read as a double exactly when it is not out of range. -/
theorem exists_floatOfText?_iff {text : String} (h : Pattern.float.accepts text = true) :
    (∃ d, Module.floatOfText? text = some (.finite d)) ↔ ¬ OutOfRange text := by
  obtain ⟨sign, digits, fraction, htext, hsign, hdigits, hfraction⟩ := float_accepts_iff.1 h
  rw [OutOfRange, digitsNumber_numeral htext hsign hdigits hfraction,
    places_numeral htext hsign hdigits hfraction, Nat.not_le,
    ← Decimal.exists_toExtended_iff (decide (sign = ['-'])),
    Module.floatOfText?_numeral htext hsign hdigits hfraction]
  simp only [Option.some.injEq]

end Text

/-! ## The modules -/

namespace Module

/-- The modules that coerce to a float, with the configurations that ask them to. -/
inductive CoercesToFloat {σ : Type} : Module σ → Configuration → Prop
  | float : CoercesToFloat Module.float (.value (.bool true))
  | rounded : CoercesToFloat roundedFloat (.value (.bool true))
  | places (n : ℤ) : CoercesToFloat roundedFloat (.value (.number (.int n)))

/-- The decimal places that a rounding multiplies out of a number. -/
def Rounding.count : Rounding → Nat
  | .off | .coerce => 0
  | .places count => count

/-- What a rounding makes of a number. -/
def Rounding.apply : Rounding → Extended → Extended
  | .off, x | .coerce, x => x
  | .places count, x => x.roundToPlaces count

/-- A double can be rounded exactly when there is room for the power of ten that it is multiplied
by. -/
theorem Rounding.exists_apply_iff (rounding : Rounding) (d : Double) :
    (∃ e, rounding.apply (.finite d) = .finite e) ↔
      d.units * 10 ^ rounding.count < overflowBound := by
  cases rounding with
  | off | coerce =>
    rw [count, Nat.pow_zero, Nat.mul_one]
    exact iff_of_true ⟨d, rfl⟩ d.units_lt_overflowBound
  | places count => exact Extended.exists_roundToPlaces_iff d count

/-- A number that is not finite stays so. -/
theorem Rounding.exists_of_apply (rounding : Rounding) {x : Extended}
    (h : ∃ e, rounding.apply x = .finite e) : ∃ d, x = .finite d := by
  cases x with
  | finite d => exact ⟨d, rfl⟩
  | infinite negative | undefined =>
    obtain ⟨e, he⟩ := h
    cases rounding <;> cases he

/-- What a coercion to a float may leave of a text: the text itself when it is switched off, and
otherwise a number, given the room that rounding needs, and null for a text out of range. -/
structure CoercesFloat (text : String) (rounding : Rounding) (v : Value) : Prop where
  off : rounding = .off → v = .string text
  number : rounding ≠ .off → Text.HasRoom text rounding.count → ∃ number, v = .number number
  beyond : rounding ≠ .off → Text.OutOfRange text → v = .null

/-- A coercion that is switched off leaves the text. -/
theorem coercesFloat_off (text : String) : CoercesFloat text .off (.string text) :=
  ⟨fun _ => rfl, fun hon => absurd rfl hon, fun hon => absurd rfl hon⟩

/-- A coercion that is not switched off makes a number if there is room for it, and null if the text
is out of range. -/
theorem coercesFloat_apply {text : String} (haccepts : Pattern.float.accepts text = true)
    {x : Extended} (hread : floatOfText? text = some x) {rounding : Rounding}
    (hon : rounding ≠ .off) : CoercesFloat text rounding (.ofExtended (rounding.apply x)) := by
  refine ⟨fun hoff => absurd hoff hon, ?_, ?_⟩
  · rintro - ⟨d, hd, hroom⟩
    cases hread.symm.trans hd
    obtain ⟨e, he⟩ := (rounding.exists_apply_iff d).2 hroom
    rw [he]
    exact exists_number_of_finite e
  · intro _ hbeyond
    refine ofExtended_eq_null fun hfinite => ?_
    obtain ⟨d, rfl⟩ := rounding.exists_of_apply hfinite
    exact (Text.exists_floatOfText?_iff haccepts).1 ⟨d, hread⟩ hbeyond

/-- The rounding module writes the rounded number, unless rounding is switched off. -/
theorem roundedFloat_writes {σ : Type} (config : Configuration) (scope : Scope σ) (c : σ)
    {x : Extended} (hnumber : floatOfValue? scope.value = some x) :
    roundedFloat config scope ⟨none, c⟩ = .ok none
      ⟨if roundingOf config scope = .off then none
        else some (.ofExtended ((roundingOf config scope).apply x)), c⟩ := by
  unfold roundedFloat
  rw [hnumber]
  cases roundingOf config scope <;> rfl

/-- A module that coerces to a float leaves the text that it is switched off for, and otherwise puts
what its rounding makes of the number into the field. -/
theorem CoercesToFloat.writes {σ : Type} {module : Module σ} {config : Configuration}
    (h : CoercesToFloat module config) (scope : Scope σ) (c : σ) {text : String}
    (hvalue : scope.value = .string text) (haccepts : Pattern.float.accepts text = true) :
    ∃ written, module config scope ⟨none, c⟩ = .ok none ⟨written, c⟩ ∧
      CoercesFloat text (roundingOf config scope) (written.getD (.string text)) := by
  obtain ⟨x, hread⟩ := floatOfText?_of_accepts haccepts
  have hnumber : floatOfValue? scope.value = some x := by
    rw [hvalue, floatOfValue?, coercibleText?]
    simp only [haccepts, hread, if_true]
  have hrounded : ∀ config, CoercesFloat text (roundingOf config scope)
      ((if roundingOf config scope = .off then none
        else some (.ofExtended ((roundingOf config scope).apply x))).getD (.string text)) := by
    intro config
    by_cases hoff : roundingOf config scope = .off
    · rw [hoff]
      exact coercesFloat_off text
    · rw [if_neg hoff]
      exact coercesFloat_apply haccepts hread hoff
  cases h with
  | float =>
    refine ⟨some (.ofExtended x), ?_, hrounded (.value (.bool true))⟩
    unfold Module.float
    rw [hnumber]
    rfl
  | rounded => exact ⟨_, roundedFloat_writes _ scope c hnumber, hrounded _⟩
  | places n => exact ⟨_, roundedFloat_writes _ scope c hnumber, hrounded _⟩

end Module

namespace Engine

variable {σ : Type}

/-- On a field with a text of the float format, a module that is asked to coerce to a float runs to
the end, and leaves the text if rounding is switched off, a number if there is room for it, and null
if the text is out of range. -/
theorem runModule_float (engine : Engine σ) (nested : NestedValidation σ) (field : String)
    (form : CanonicalForm) {module : Module σ} {config : Configuration}
    (hasked : Module.CoercesToFloat module config) {s : Store Record σ} {text : String}
    (hread : s.target.read field = .string text) (haccepts : Pattern.float.accepts text = true) :
    ∃ t, engine.runModule nested field form config module s = .ok none t ∧
      Module.CoercesFloat text
        (Module.roundingOf config
          ⟨field, form, engine.settings.strict, s.target, engine.announced nested⟩)
        (t.target.read field) := by
  obtain ⟨written, hrun, hcoerced⟩ := hasked.writes
    ⟨field, form, engine.settings.strict, s.target, engine.announced nested⟩ s.caller hread haccepts
  refine ⟨_, runModule_eq_ok_iff.2 ⟨_, hrun, rfl⟩, ?_⟩
  rw [Fields.read_putIf, hread]
  exact hcoerced

/-- A text with room for two decimal places is coerced to a number. -/
theorem runModule_float_places :
    Text.HasRoom "2.346" 2 ∧
    ∃ t number, (standard : Engine Unit).runModule standard.validate "f" ⟨[], []⟩
        (.value (.number (.int 2))) Module.roundedFloat ⟨[("f", .string "2.346")], ()⟩ =
          .ok none t ∧
      t.target.read "f" = .number number := by
  have hroom : Text.HasRoom "2.346" 2 := by decide +kernel
  obtain ⟨t, hrun, hcoerced⟩ := @runModule_float Unit standard standard.validate "f" ⟨[], []⟩ _ _
    (.places 2) ⟨[("f", .string "2.346")], ()⟩ "2.346" rfl (by decide)
  obtain ⟨number, hnumber⟩ := hcoerced.number (by decide) hroom
  exact ⟨hroom, t, number, hrun, hnumber⟩

/-- A one and 309 zeros: the least power of ten that is out of the range of doubles. -/
def longNumeral : String := String.ofList ('1' :: List.replicate 309 '0')

/-- The characters of the numeral are a one and its zeros. -/
theorem toList_longNumeral : longNumeral.toList = '1' :: List.replicate 309 '0' :=
  String.toList_ofList

/-- The numeral has the float format. -/
theorem accepts_longNumeral : Pattern.float.accepts longNumeral = true := by
  refine float_accepts_of_int (int_accepts_iff.2
    ⟨[], _, toList_longNumeral, Or.inl rfl, List.cons_ne_nil _ _, fun c hc => ?_⟩)
  rcases List.mem_cons.1 hc with rfl | hc
  · rfl
  · rw [List.eq_of_mem_replicate hc]
    rfl

/-- The numeral is out of range. -/
theorem outOfRange_longNumeral : Text.OutOfRange longNumeral := by
  have hnumber : Text.digitsNumber longNumeral = 10 ^ 309 := by
    rw [Text.digitsNumber, toList_longNumeral]
    decide +kernel
  have hplaces : Text.places longNumeral = 0 := by
    rw [Text.places, toList_longNumeral]
    decide +kernel
  have hbound : overflowBound * 10 ^ 0 ≤ 10 ^ 309 * unitsPerOne := by
    decide +kernel
  rwa [← hnumber, ← hplaces] at hbound

/-- The text of a number out of range is coerced to null. -/
theorem runModule_float_beyond :
    Pattern.float.accepts longNumeral = true ∧
    Module.CoercesToFloat (Module.float : Module Unit) (.value (.bool true)) ∧
    ∃ t, (standard : Engine Unit).runModule standard.validate "f" ⟨[], []⟩ (.value (.bool true))
        Module.float ⟨[("f", .string longNumeral)], ()⟩ = .ok none t ∧
      t.target.read "f" = .null := by
  have hasked : Module.CoercesToFloat (Module.float : Module Unit) (.value (.bool true)) := .float
  obtain ⟨written, hrun, hcoerced⟩ := hasked.writes
    ⟨"f", ⟨[], []⟩, (standard : Engine Unit).settings.strict, [("f", .string longNumeral)],
      (standard : Engine Unit).announced standard.validate⟩ () rfl accepts_longNumeral
  refine ⟨accepts_longNumeral, hasked, _, runModule_eq_ok_iff.2 ⟨_, hrun, rfl⟩, ?_⟩
  rw [Fields.read_putIf]
  exact hcoerced.beyond Module.Rounding.noConfusion outOfRange_longNumeral

end Engine

end Vetting
