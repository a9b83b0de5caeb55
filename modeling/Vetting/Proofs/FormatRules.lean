import Vetting.Proofs.ModuleLocality
import Vetting.Proofs.Numerals

/-!
# Rules for the number formats

A rule that asks for a number format may coerce the text of its field to a number first, and then
asks for the format of the plain text of that number. It agrees with the rule that only asks for the
format on every text, except where the text has the format and spells a number whose nearest double
is scientific (`Text.SpellsScientific`): such a number is written with an exponent, so that the
coercing rule rejects what the plain one accepts (`judgeField_formatRule_iff`). A number out of the
range of doubles is no exception, since it is coerced to null, which is passed over as blank.
-/

set_option autoImplicit false

namespace Vetting

-- No proof is to compute how many units make one.
seal unitsPerOne

/-- A text of a format that spells a number whose nearest double is scientific. -/
def Text.SpellsScientific (format : Pattern) (text : String) : Prop :=
  format.accepts text = true ∧ ∃ d, Module.floatOfText? text = some (.finite d) ∧ d.Scientific

instance (format : Pattern) (text : String) : Decidable (Text.SpellsScientific format text) :=
  match hread : Module.floatOfText? text with
  | some (.finite d) =>
    decidable_of_iff (format.accepts text = true ∧ d.Scientific)
      (and_congr_right fun _ => ⟨fun h => ⟨d, hread, h⟩, fun ⟨_, hd, h⟩ => by
        rw [hread] at hd
        cases hd
        exact h⟩)
  | some (.infinite _) | some .undefined | none =>
    isFalse fun ⟨_, _, hd, _⟩ => by
      rw [hread] at hd
      cases hd

example : Text.SpellsScientific .float "0.0000001" ∧
    Text.SpellsScientific .int "1000000000000000000000" ∧
    ¬ Text.SpellsScientific .float "0.00001" ∧ ¬ Text.SpellsScientific .int "007" := by
  decide +kernel

/-- The two formats that a field may be coerced to. -/
def Pattern.IsNumeric (format : Pattern) : Prop := format = .float ∨ format = .int

/-- A text of the int format has either of the number formats. -/
theorem Pattern.IsNumeric.accepts_of_int {format : Pattern} (hformat : format.IsNumeric)
    {text : String} (h : Pattern.int.accepts text = true) : format.accepts text = true := by
  rcases hformat with rfl | rfl
  · exact float_accepts_of_int h
  · exact h

/-- What the coercion to a number format may make of a text: it leaves a text without the format,
and puts in the place of another one an integer, where the nearest double of the number is not
scientific, or the value of that double, which for the int format is a whole number. -/
inductive Module.CoercedTo (format : Pattern) (text : String) : Value → Prop
  | stays : format.accepts text = false → CoercedTo format text (.string text)
  | integer {x : Extended} (n : ℤ) : format.accepts text = true → floatOfText? text = some x →
      (∀ d, x = .finite d → ¬ d.Scientific) → CoercedTo format text (.ofInt n)
  | nearest {x : Extended} : format.accepts text = true → floatOfText? text = some x →
      (∀ d, x = .finite d → format = .int → d.isIntegral = true) →
        CoercedTo format text (.ofExtended x)

/-! ## The format of a value that is coerced -/

namespace Value

/-- An integer is displayed by its digits, behind a minus if it is negative. -/
theorem display_ofInt (n : ℤ) : (ofInt n).display = toString n := by
  rw [ofInt, display, displayNumber]

/-- The plain text of the value of a double has the number formats exactly when the double is not
scientific, the int format only if it is a whole number. -/
theorem accepts_display_ofExtended {format : Pattern} (hformat : format.IsNumeric) {d : Double}
    (hwhole : format = .int → d.isIntegral = true) :
    format.accepts (ofExtended (.finite d)).display = true ↔ ¬ d.Scientific := by
  rw [ofExtended]
  split
  · next hsmall =>
    obtain ⟨hintegral, hbelow⟩ := Bool.and_eq_true_iff.1 hsmall
    have hlt : d.units < 10 ^ 21 * unitsPerOne := by
      have hunits : d.units < integerBound * unitsPerOne := decide_eq_true_eq.mp hbelow
      have hbound : integerBound * unitsPerOne ≤ 10 ^ 21 * unitsPerOne :=
        Nat.mul_le_mul_right _ (by decide)
      omega
    rw [display_ofInt]
    exact iff_of_true (hformat.accepts_of_int (int_accepts_toString d.toInt))
      (not_scientific_of_whole hintegral hlt)
  · rw [display]
    rcases hformat with rfl | rfl
    · exact (accepts_displayNumber d).1
    · exact (accepts_displayNumber d).2 (hwhole rfl)

end Value

/-- A text of a format spells a scientific number when the number that it is read as is one. -/
theorem Text.spellsScientific_iff {format : Pattern} {text : String} {x : Extended}
    (haccepted : format.accepts text = true) (hread : Module.floatOfText? text = some x) :
    Text.SpellsScientific format text ↔ ∃ d, x = .finite d ∧ d.Scientific := by
  constructor
  · rintro ⟨-, d, hd, hscientific⟩
    rw [hread] at hd
    exact ⟨d, Option.some.inj hd, hscientific⟩
  · rintro ⟨d, rfl, hscientific⟩
    exact ⟨haccepted, d, hread, hscientific⟩

namespace Module.CoercedTo

variable {format : Pattern} {text : String} {v : Value}

/-- The value that a text is coerced to is rejected by its own format exactly when the text is, or
spells a scientific number. -/
theorem rejected_iff (h : CoercedTo format text v) (hformat : format.IsNumeric)
    (htext : text ≠ "") :
    v.isBlank = false ∧ format.accepts v.display = false ↔
      format.accepts text = false ∨ Text.SpellsScientific format text := by
  cases h with
  | stays hrejected =>
    have hblank : (Value.string text).isBlank = false := String.isEmpty_eq_false_iff.2 htext
    rw [Value.display]
    exact iff_of_true ⟨hblank, hrejected⟩ (Or.inl hrejected)
  | integer n haccepted hread hplain =>
    have hdisplay : format.accepts (Value.ofInt n).display = true := by
      rw [Value.display_ofInt]
      exact hformat.accepts_of_int (int_accepts_toString n)
    rw [Text.spellsScientific_iff haccepted hread, hdisplay, haccepted]
    refine iff_of_false (fun hrejected => Bool.true_eq_false.mp hrejected.2) ?_
    rintro (hrejected | ⟨d, hd, hscientific⟩)
    · cases hrejected
    · exact hplain d hd hscientific
  | @nearest x haccepted hread hwhole =>
    rw [Text.spellsScientific_iff haccepted hread, haccepted]
    cases x with
    | finite d =>
      have hiff := Value.accepts_display_ofExtended hformat (hwhole d rfl)
      have hblank : (Value.ofExtended (.finite d)).isBlank = false := by
        rw [Value.ofExtended]
        split <;> rfl
      have hrejected : format.accepts (Value.ofExtended (.finite d)).display = false ↔
          d.Scientific := by
        rw [← Bool.not_eq_true, hiff, not_not]
      rw [hblank, hrejected]
      simp
    | _ =>
      -- A number out of range is blank, and no double is nearest to it.
      refine iff_of_false (fun hrejected => Bool.true_eq_false.mp hrejected.1) ?_
      rintro (hrejected | ⟨d, hd, -⟩)
      · cases hrejected
      · cases hd

end Module.CoercedTo

/-! ## What the coercing modules do -/

namespace Module

variable {σ : Type}

/-- The module of a number format finishes on a text, and leaves what the text is coerced to. -/
theorem coerces {format : Pattern} (hformat : format.IsNumeric) :
    ∃ module, (KnownModules.builtin : KnownModules σ).get? format.name = some module ∧
      ∀ (scope : Scope σ) (c : σ) (text : String), scope.value = .string text →
        ∃ written, module (.value (.bool true)) scope ⟨none, c⟩ = .ok none ⟨written, c⟩ ∧
          CoercedTo format text (written.getD (.string text)) := by
  rcases hformat with rfl | rfl
  · refine ⟨float, rfl, fun scope c text hvalue => ?_⟩
    unfold float
    rw [hvalue]
    by_cases haccepted : Pattern.float.accepts text = true
    · obtain ⟨x, hread⟩ := floatOfText?_of_accepts haccepted
      have hnumber : floatOfValue? (.string text) = some x := by
        rw [floatOfValue?, coercibleText?]
        simp only [haccepted, hread, if_true]
      rw [hnumber]
      exact ⟨some (.ofExtended x), rfl, .nearest haccepted hread fun _ _ h => nomatch h⟩
    · have hnumber : floatOfValue? (.string text) = none := by
        rw [floatOfValue?, coercibleText?]
        simp only [haccepted]
        rfl
      rw [hnumber]
      exact ⟨none, rfl, .stays (Bool.not_eq_true _ ▸ haccepted)⟩
  · refine ⟨int, rfl, fun scope c text hvalue => ?_⟩
    unfold int
    rw [hvalue]
    by_cases haccepted : Pattern.int.accepts text = true
    · obtain ⟨x, hread, ⟨n, hint, hplain⟩ | ⟨hint, hwhole⟩⟩ := intOfText?_of_accepts haccepted
      · refine ⟨some (.ofInt n), ?_, .integer n haccepted hread hplain⟩
        simp only [coercibleText?, haccepted, hint, if_true]
        rfl
      · refine ⟨some (.ofExtended x), ?_, .nearest haccepted hread fun d hd _ => hwhole d hd⟩
        simp only [coercibleText?, haccepted, hint, if_true]
        rfl
    · refine ⟨none, ?_, .stays (Bool.not_eq_true _ ▸ haccepted)⟩
      simp only [coercibleText?, haccepted]
      rfl

end Module

/-! ## Rules for a format -/

/-- A rule that asks for a number format, and has the text of its field coerced to it first or
not. -/
def formatRule (format : Pattern) (coercing : Bool) : Rule :=
  .descriptor ⟨.name format.name,
    if coercing then [(format.name, .value (.bool true))] else []⟩

example : Rules.ofValue (.object [("f", .object [("validators", .string "float"),
    ("float", .bool true)])]) = .ok (.fields [("f", formatRule .float true)]) := by
  rfl

/-- Whether the result of a field has an error under a name. -/
def FieldResult.Records (result : FieldResult) (name : String) : Prop :=
  ∃ report, result = .checked report ∧ name ∈ Fields.keys report.errors

/-- The validator of a number format asks for the format, and passes over a blank value. -/
theorem KnownValidators.get?_format {format : Pattern} (hformat : format.IsNumeric) :
    ∃ validator, KnownValidators.builtin.get? format.name = some validator ∧
      validator.check = Validator.hasFormat format ∧ validator.presence = false := by
  rcases hformat with rfl | rfl
  · exact ⟨_, rfl, rfl, rfl⟩
  · exact ⟨_, rfl, rfl, rfl⟩

namespace Engine

variable {σ : Type} {engine : Engine σ} {nested : NestedValidation σ} {field : String}

/-- A lenient engine rejects a value for its format exactly when it is not blank and its plain text
does not have the format. -/
theorem check_format (hlenient : engine.settings.strict = false) {format : Pattern}
    {validator : Validator} (hcheck : validator.check = Validator.hasFormat format)
    (hpresence : validator.presence = false) (depends : String → Run Record σ Bool)
    (name : String) (u : Store Record σ) :
    ∃ verdict, engine.check depends field name validator (.ofExpected true) u = .ok verdict u ∧
      (verdict.message?.isSome = true ↔
        (u.target.read field).isBlank = false ∧
          format.accepts (u.target.read field).display = false) := by
  unfold check
  rw [Run.target_bind, hpresence, hlenient]
  cases hblank : (u.target.read field).isBlank with
  | true => exact ⟨.skipped, rfl, by simp [Verdict.message?]⟩
  | false =>
    have hactual : validator.check (u.target.read field) [] =
        format.accepts (u.target.read field).display := by
      rw [hcheck]
      rfl
    let message := Template.fill (validator.message.template u.target []) []
    have hverdict : ∀ b, validator.check (u.target.read field) [] = b →
        (if validator.check (u.target.read field) [] == true then
            (pure .passed : Run Record σ Verdict)
          else pure (.failed message)) u = .ok (if b then .passed else .failed message) u := by
      rintro b rfl
      cases validator.check (u.target.read field) [] <;> rfl
    refine ⟨_, hverdict _ hactual, ?_⟩
    cases format.accepts (u.target.read field).display <;> simp [Verdict.message?]

/-- A field with one validator, about which its modules report nothing, has an error under the name
of the validator exactly when that one fails. -/
theorem records_iff_isSome (force : Bool) (name : String) (verdict : Verdict) :
    FieldResult.Records
        (if !force && ((failures [(name, verdict)]).merge Contributions.empty.errors).isEmpty then
          .valid
        else
          .checked ⟨(failures [(name, verdict)]).merge Contributions.empty.errors,
            Contributions.empty.aux⟩) name ↔
      verdict.message?.isSome = true := by
  cases hmessage : verdict.message? with
  | none =>
    have hnone : failures [(name, verdict)] = [] := by simp [failures, hmessage]
    rw [hnone]
    refine iff_of_false ?_ (by simp)
    rintro ⟨report, hresult, hname⟩
    split at hresult
    · cases hresult
    · cases hresult
      cases hname
  | some text =>
    have hsome : failures [(name, verdict)] = [(name, .message text)] := by
      simp [failures, hmessage]
    rw [hsome]
    refine iff_of_true ⟨_, if_neg ?_, List.mem_cons_self⟩ rfl
    simp [Contributions.empty, Fields.merge]

/-- A lenient engine with the built-in validator of a format records an error for the format exactly
when the modules leave a value that is not blank and whose plain text does not have the format. -/
theorem judge_format (hlenient : engine.settings.strict = false) {format : Pattern}
    (hformat : format.IsNumeric)
    (hvalidator : engine.validators.get? format.name = KnownValidators.builtin.get? format.name)
    {coercing : Bool} (depends : String → Run Record σ Bool) (force : Bool) {s u : Store Record σ}
    (hmodules : engine.runModules nested field (formatRule format coercing).canonical
      (formatRule format coercing).canonical.modules .empty s = .ok .empty u) :
    ∃ result, engine.judge nested depends field (formatRule format coercing) force s =
        .ok result u ∧
      (result.Records format.name ↔
        (u.target.read field).isBlank = false ∧
          format.accepts (u.target.read field).display = false) := by
  obtain ⟨validator, hget, hcheck, hpresence⟩ := KnownValidators.get?_format hformat
  obtain ⟨verdict, hverdict, hrejected⟩ :=
    check_format hlenient hcheck hpresence depends format.name u
  have hspecs : (formatRule format coercing).canonical.validators =
      [(format.name, .ofExpected true)] := rfl
  have hfound : engine.findAll (formatRule format coercing).canonical.validators =
      .ok [(format.name, validator, .ofExpected true)] := by
    have hfind : engine.validators.find format.name = .ok validator :=
      find_eq_ok.2 (by rw [hvalidator, hget])
    rw [hspecs, findAll, hfind]
    rfl
  have hchecks : engine.checkAll depends field
      [(format.name, validator, .ofExpected true)] u = .ok [(format.name, verdict)] u := by
    rw [checkAll, Run.bind_of_ok hverdict]
    rfl
  exact ⟨_, judge_eq_ok.2 ⟨_, _, u, _, hfound, hmodules, hchecks, rfl⟩,
    (records_iff_isSome force format.name verdict).trans hrejected⟩

/-- The modules of a rule for a format leave the text of the field, or coerce it. -/
theorem runModules_formatRule {format : Pattern} (hformat : format.IsNumeric)
    (hmodule : engine.modules.get? format.name = KnownModules.builtin.get? format.name)
    (nested : NestedValidation σ) {text : String} {s : Store Record σ}
    (hread : s.target.read field = .string text) :
    engine.runModules nested field (formatRule format false).canonical
      (formatRule format false).canonical.modules .empty s = .ok .empty s ∧
    ∃ written, engine.runModules nested field (formatRule format true).canonical
        (formatRule format true).canonical.modules .empty s =
          .ok .empty ⟨s.target.putIf field written, s.caller⟩ ∧
      Module.CoercedTo format text (written.getD (.string text)) := by
  refine ⟨rfl, ?_⟩
  obtain ⟨module, hget, hcoerces⟩ := @Module.coerces σ format hformat
  obtain ⟨written, hrun, hcoerced⟩ := hcoerces
    ⟨field, (formatRule format true).canonical, engine.settings.strict, s.target,
      engine.announced nested⟩ s.caller text hread
  refine ⟨written, ?_, hcoerced⟩
  have hstep : engine.runModule nested field (formatRule format true).canonical
      (.value (.bool true)) module s = .ok none ⟨s.target.putIf field written, s.caller⟩ :=
    runModule_eq_ok_iff.2 ⟨_, hrun, rfl⟩
  have hconfigs : (formatRule format true).canonical.modules =
      [(format.name, .value (.bool true))] := rfl
  rw [hconfigs, runModules, hmodule, hget]
  exact Run.bind_eq_ok.2 ⟨_, _, hstep, rfl⟩

/-- A lenient engine with the built-ins of a format finishes with a rule for it on a field with some
text. The plain rule records an error of the format exactly when the text does not have the format,
and the coercing rule also when the text spells a scientific number. -/
theorem judgeWithin_formatRule (hlenient : engine.settings.strict = false) {format : Pattern}
    (hformat : format.IsNumeric)
    (hvalidator : engine.validators.get? format.name = KnownValidators.builtin.get? format.name)
    (hmodule : engine.modules.get? format.name = KnownModules.builtin.get? format.name)
    (nested : NestedValidation σ) (rules : Fields Rule) (inProgress : List String) {text : String}
    (htext : text ≠ "") (force : Bool) {s : Store Record σ}
    (hread : s.target.read field = .string text) (coercing : Bool) :
    ∃ result t,
      engine.judgeWithin nested rules inProgress field (formatRule format coercing) force s =
        .ok result t ∧
      (result.Records format.name ↔ format.accepts text = false ∨
        coercing = true ∧ Text.SpellsScientific format text) := by
  let start : Store Record σ :=
    ⟨s.target, engine.observe (.entered rules.keys (inProgress ++ [field])) s.caller⟩
  have hstart : start.target.read field = .string text := hread
  obtain ⟨hplain, written, hcoercing, hcoerced⟩ :=
    runModules_formatRule hformat hmodule nested hstart
  let depends := engine.dependencyPasses nested rules (inProgress ++ [field])
  cases coercing with
  | false =>
    obtain ⟨result, hrun, hrecords⟩ :=
      judge_format hlenient hformat hvalidator depends force hplain
    have hblank : (Value.string text).isBlank = false := String.isEmpty_eq_false_iff.2 htext
    rw [hstart, Value.display] at hrecords
    exact ⟨result, _, during_of_ok hrun, by simp [hrecords, hblank]⟩
  | true =>
    obtain ⟨result, hrun, hrecords⟩ :=
      judge_format hlenient hformat hvalidator depends force hcoercing
    rw [Fields.read_putIf, hstart, hcoerced.rejected_iff hformat htext] at hrecords
    exact ⟨result, _, during_of_ok hrun, by simp [hrecords]⟩

/-- On a field with some text, for a lenient engine with the built-in validator and module of a
number format, the plain and the coercing rule for the format both run to the end, and the coercing
one records an error of the format whenever the plain one does. They agree exactly when the text is
not one of the format that spells a scientific number. -/
theorem judgeField_formatRule_iff (hlenient : engine.settings.strict = false) {format : Pattern}
    (hformat : format.IsNumeric)
    (hvalidator : engine.validators.get? format.name = KnownValidators.builtin.get? format.name)
    (hmodule : engine.modules.get? format.name = KnownModules.builtin.get? format.name)
    (rules : Fields Rule) (field : String) {text : String} (htext : text ≠ "") (force : Bool)
    {s : Store Record σ} (hread : s.target.read field = .string text) :
    ∃ coerced t plain u,
      engine.judgeField rules field (formatRule format true) force s = .ok coerced t ∧
      engine.judgeField rules field (formatRule format false) force s = .ok plain u ∧
      (plain.Records format.name → coerced.Records format.name) ∧
      ((coerced.Records format.name ↔ plain.Records format.name) ↔
        ¬ Text.SpellsScientific format text) := by
  have hjudged := fun nested coercing => judgeWithin_formatRule hlenient hformat hvalidator hmodule
    nested rules [] htext force hread coercing
  obtain ⟨coerced, t, hcoercing, hcoerced⟩ := hjudged (engine.nestedWithin engine.nestingLimit
    ((Rules.fields rules).weight + (formatRule format true).weight)) true
  obtain ⟨plain, u, hplain, hplained⟩ := hjudged (engine.nestedWithin engine.nestingLimit
    ((Rules.fields rules).weight + (formatRule format false).weight)) false
  simp only [true_and, Bool.false_eq_true, false_and, or_false] at hcoerced hplained
  -- A text that spells a scientific number has the format.
  have hhas : Text.SpellsScientific format text → ¬ format.accepts text = false :=
    fun hspells => Bool.not_eq_false _ ▸ hspells.1
  refine ⟨coerced, t, plain, u, hcoercing, hplain, ?_, ?_⟩
  · rw [hcoerced, hplained]
    exact Or.inl
  · rw [hcoerced, hplained]
    tauto

/-- The two rules agree on a text that spells no scientific number. -/
theorem judgeField_formatRule_fraction :
    ¬ Text.SpellsScientific .float "1.50" ∧
    ∃ coerced t plain u,
      (standard : Engine Unit).judgeField [] "f" (formatRule .float true) false
        ⟨[("f", .string "1.50")], ()⟩ = .ok coerced t ∧
      (standard : Engine Unit).judgeField [] "f" (formatRule .float false) false
        ⟨[("f", .string "1.50")], ()⟩ = .ok plain u ∧
      (coerced.Records "float" ↔ plain.Records "float") := by
  have hplain : ¬ Text.SpellsScientific .float "1.50" := by decide +kernel
  obtain ⟨coerced, t, plain, u, hcoerced, hrun, -, hagree⟩ :=
    @judgeField_formatRule_iff Unit standard rfl .float (Or.inl rfl) rfl rfl [] "f" "1.50"
      (by decide) false ⟨[("f", .string "1.50")], ()⟩ rfl
  exact ⟨hplain, coerced, t, plain, u, hcoerced, hrun, hagree.2 hplain⟩

/-- The coercing rule rejects a number close to zero, which the plain rule accepts: it is put into
the field, and written there with an exponent. -/
theorem judgeField_formatRule_scientific :
    Rules.ofValue (.object [("f", .object [("validators", .string "float"),
      ("float", .bool true)])]) = .ok (.fields [("f", formatRule .float true)]) ∧
    ∃ coerced t plain u,
      (standard : Engine Unit).judgeField [("f", formatRule .float true)] "f"
        (formatRule .float true) false ⟨[("f", .string "0.0000001")], ()⟩ = .ok coerced t ∧
      (standard : Engine Unit).judgeField [("f", formatRule .float false)] "f"
        (formatRule .float false) false ⟨[("f", .string "0.0000001")], ()⟩ = .ok plain u ∧
      coerced.Records "float" ∧ ¬ plain.Records "float" := by
  have hspells : Text.SpellsScientific .float "0.0000001" := by decide +kernel
  have hjudged := fun nested rules coercing => @judgeWithin_formatRule Unit standard "f" rfl .float
    (Or.inl rfl) rfl rfl nested rules [] "0.0000001" (by decide) false
    ⟨[("f", .string "0.0000001")], ()⟩ rfl coercing
  obtain ⟨coerced, t, hcoercing, hcoerced⟩ := hjudged _ [("f", formatRule .float true)] true
  obtain ⟨plain, u, hplain, hplained⟩ := hjudged _ [("f", formatRule .float false)] false
  refine ⟨rfl, coerced, t, plain, u, hcoercing, hplain, hcoerced.2 (Or.inr ⟨rfl, hspells⟩), ?_⟩
  intro hrecords
  rcases hplained.1 hrecords with hrejected | ⟨hfalse, -⟩
  · rw [hspells.1] at hrejected
    cases hrejected
  · cases hfalse

end Engine

end Vetting
