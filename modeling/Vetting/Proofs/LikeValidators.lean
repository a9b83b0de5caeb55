import Vetting.Proofs.ValueLikeness

/-!
# Validators that do not tell like values apart

A validator is `Discreet` under a likeness if like values with like arguments pass or fail it alike,
and its default message says the same of them. The built-in validators read a value as a number, as
a text or place by place, and all of these are the same for values that differ in the order of
members only: they are discreet under every likeness (`KnownValidators.discreet_builtin`). Under the
narrowest likeness every validator is (`Validator.discreet_identical`).
-/

set_option autoImplicit false

namespace Vetting

/-- A validator does not tell like values and arguments apart, and its default message is the same
for like records and arguments. -/
structure Validator.Discreet (E : Value.Likeness) (validator : Validator) : Prop where
  check : ∀ v v' args args', E.rel v v' → Arguments.Like E args args' →
    validator.check v args = validator.check v' args'
  message : validator.message.Like E validator.message

namespace Validator

variable {E : Value.Likeness} {v v' : Value} {args args' : Arguments}

/-- Like values stand in the same order to like values. -/
theorem related_eq {w w' : Value} (test : Ordering → Bool) (h : v.Unordered v')
    (h' : w.Unordered w') : related test v w = related test v' w' := by
  rw [related, related, h.compare_eq h']

/-- Like values stand in the same order to like bounds. -/
theorem relatedToBound_eq (test : Ordering → Bool) (index : Nat) (h : E.rel v v')
    (hargs : Arguments.Like E args args') :
    relatedToBound test index v args = relatedToBound test index v' args' := by
  have hat := hargs.at? index
  unfold relatedToBound
  generalize args.at? index = a, args'.at? index = a' at hat
  cases hat with
  | none => rfl
  | some hat => exact related_eq test (E.unordered h) (E.unordered hat.toValue)

/-- The texts of like values are as long. -/
theorem related_textLength_eq (test : Ordering → Bool) (h : E.rel v v')
    (hargs : Arguments.Like E args args') :
    related test (textLength v) (args.value 0) = related test (textLength v') (args'.value 0) := by
  have hlength : textLength v = textLength v' := by
    rw [textLength, textLength, (E.unordered h).display_eq]
  rw [hlength]
  exact related_eq test (.ofInt _) (E.unordered (hargs.value 0))

/-- The lengths of like values are in the range of like bounds, or none is. -/
theorem lengthInRange_eq (h : E.rel v v') (hargs : Arguments.Like E args args') :
    lengthInRange v args = lengthInRange v' args' := by
  have hv := E.unordered h
  have hlow := E.unordered (hargs.value 0)
  have hhigh := E.unordered (hargs.value 1)
  rw [lengthInRange, lengthInRange, hv.isTruthy_eq, hv.length?_eq]
  cases v'.length? with
  | none => rfl
  | some n =>
    dsimp only
    rw [related_eq atLeast (.ofInt _) hlow, related_eq atMost (.ofInt _) hhigh]

/-- The bounds of a range are looked at place by place. -/
theorem range_eq (h : E.rel v v') : range v args = range v' args' := by
  cases E.unordered h with
  | @array items items' length each =>
    have hplace : ∀ i : Nat, Option.Rel Value.Unordered items[i]? items'[i]? := by
      intro i
      by_cases hi : i < items.length
      · have hi' : i < items'.length := length ▸ hi
        rw [List.getElem?_eq_getElem hi, List.getElem?_eq_getElem hi']
        exact .some (each i _ _ (List.getElem?_eq_getElem hi) (List.getElem?_eq_getElem hi'))
      · have hi' : ¬ i < items'.length := length ▸ hi
        rw [List.getElem?_eq_none (by omega), List.getElem?_eq_none (by omega)]
        exact .none
    have hlow := hplace 0
    have hhigh := hplace 1
    unfold range
    dsimp only
    generalize items[0]? = low, items'[0]? = low', items[1]? = high, items'[1]? = high'
      at hlow hhigh
    cases hlow with
    | none => cases hhigh with
      | none => rfl
      | some hhigh => dsimp only; rw [hhigh.looselyEquals_eq (.ofInt _)]
    | some hlow => cases hhigh with
      | none => dsimp only; rw [hlow.looselyEquals_eq (.ofInt _)]
      | some hhigh =>
        dsimp only
        rw [hlow.looselyEquals_eq (.ofInt _), hhigh.looselyEquals_eq (.ofInt _),
          related_eq atLeast hhigh hlow]
  | _ => rfl

/-- Of like values both are objects with members or none. -/
theorem notEmptyObject_eq (h : E.rel v v') : notEmptyObject v args = notEmptyObject v' args' := by
  have hempty : ∀ {α : Type} {as bs : List α}, as.length = bs.length → as.isEmpty = bs.isEmpty := by
    intro α as bs hlength
    rw [Bool.eq_iff_iff, List.isEmpty_iff_length_eq_zero, List.isEmpty_iff_length_eq_zero, hlength]
  cases E.unordered h with
  | @object members members' _ names =>
    have hlength : members.length = members'.length := by simpa [Fields.keys] using names.length_eq
    rw [notEmptyObject, notEmptyObject, hempty hlength]
  | array length => rw [notEmptyObject, notEmptyObject, hempty length]
  | _ => rfl

/-- What a function has said of like values is the same. -/
theorem customFunction_eq (h : E.rel v v') (hargs : Arguments.Like E args args') :
    customFunction v args = customFunction v' args' := by
  have hat := hargs.at? 0
  unfold customFunction Arguments.predicate?
  generalize args.at? 0 = a, args'.at? 0 = a' at hat
  cases hat with
  | none => rfl
  | some hat => cases hat with
    | value => rfl
    | predicate hholds => exact hholds v v' h

/-- A validator with a text for a message is discreet if its check is. -/
theorem discreet_of_check {check : Value → Arguments → Bool} {message : String} {presence : Bool}
    (h : ∀ v v' args args', E.rel v v' → Arguments.Like E args args' →
      check v args = check v' args') :
    Discreet E ⟨check, .text message, presence⟩ :=
  ⟨h, .text message⟩

/-- A check that does not look at its arguments. -/
theorem discreet_of_value {check : Value → Arguments → Bool} {message : String} {presence : Bool}
    (h : ∀ v v' args args', v.Unordered v' → check v args = check v' args') :
    Discreet E ⟨check, .text message, presence⟩ :=
  discreet_of_check fun v v' args args' hv _ => h v v' args args' (E.unordered hv)

/-- A validator of a format is discreet. -/
theorem discreet_hasFormat (pattern : Pattern) (message : String) (presence : Bool) :
    Discreet E ⟨hasFormat pattern, .text message, presence⟩ :=
  discreet_of_value fun v v' _ _ hv => by rw [hasFormat, hasFormat, hv.display_eq]

/-- A validator of a bound is discreet. -/
theorem discreet_relatedToBound (test : Ordering → Bool) (message : String) (presence : Bool) :
    Discreet E ⟨relatedToBound test 0, .text message, presence⟩ :=
  discreet_of_check fun _ _ _ _ hv hargs => relatedToBound_eq test 0 hv hargs

/-- Each built-in validator is discreet. -/
theorem discreet_of_mem {entry : String × Validator} (h : entry ∈ builtins) :
    entry.2.Discreet E := by
  have hrequired : ∀ v v' args args', v.Unordered v' → required v args = required v' args' := by
    intro v v' args args' hv
    rw [required, required, hv.isBlank_eq]
  have hrequiredOnlyIf : ∀ v v' args args', E.rel v v' → Arguments.Like E args args' →
      requiredOnlyIf v args = requiredOnlyIf v' args' := by
    intro v v' args args' hv hargs
    rw [requiredOnlyIf, requiredOnlyIf, (E.unordered hv).isBlank_eq,
      (E.unordered (hargs.value 0)).isTruthy_eq]
  have hminLength : ∀ v v' args args', E.rel v v' → Arguments.Like E args args' →
      minLength v args = minLength v' args' := by
    intro v v' args args' hv hargs
    rw [minLength, minLength, (E.unordered hv).isTruthy_eq, related_textLength_eq _ hv hargs]
  have hmaxLength : ∀ v v' args args', E.rel v v' → Arguments.Like E args args' →
      maxLength v args = maxLength v' args' := by
    intro v v' args args' hv hargs
    rw [maxLength, maxLength, (E.unordered hv).isTruthy_eq, related_textLength_eq _ hv hargs]
  have hbetween : ∀ v v' args args', E.rel v v' → Arguments.Like E args args' →
      betweenValues v args = betweenValues v' args' := by
    intro v v' args args' hv hargs
    rw [betweenValues, betweenValues, relatedToBound_eq _ 0 hv hargs,
      relatedToBound_eq _ 1 hv hargs]
  have hequals : ∀ v v' args args', E.rel v v' → Arguments.Like E args args' →
      equals v args = equals v' args' := by
    intro v v' args args' hv hargs
    exact (E.unordered hv).looselyEquals_eq (E.unordered (hargs.value 0))
  have hnotEquals : ∀ v v' args args', E.rel v v' → Arguments.Like E args args' →
      notEquals v args = notEquals v' args' := by
    intro v v' args args' hv hargs
    exact congrArg not (hequals v v' args args' hv hargs)
  have hobject : ∀ v v' args args', v.Unordered v' → isObject v args = isObject v' args' := by
    intro v v' args args' hv
    cases hv <;> rfl
  revert entry
  simp only [builtins, List.forall_mem_cons]
  exact ⟨discreet_of_value hrequired, discreet_of_check hrequiredOnlyIf,
    discreet_of_check hminLength, discreet_of_check hmaxLength,
    discreet_of_check fun _ _ _ _ => lengthInRange_eq,
    discreet_hasFormat _ _ _, discreet_hasFormat _ _ _, discreet_hasFormat _ _ _,
    discreet_relatedToBound _ _ _, discreet_relatedToBound _ _ _,
    discreet_relatedToBound _ _ _, discreet_relatedToBound _ _ _, discreet_of_check hbetween,
    discreet_of_check hequals, discreet_of_check hequals,
    discreet_of_check hnotEquals, discreet_of_check hnotEquals,
    discreet_of_check fun _ _ _ _ hv _ => range_eq hv, discreet_of_value hobject,
    discreet_of_check fun _ _ _ _ hv _ => notEmptyObject_eq hv,
    discreet_hasFormat _ _ _, discreet_hasFormat _ _ _, discreet_hasFormat _ _ _,
    discreet_hasFormat _ _ _, discreet_hasFormat _ _ _,
    discreet_of_check fun _ _ _ _ => customFunction_eq, nofun⟩

/-- Where only the very same values are like, no validator tells like values apart. -/
theorem discreet_identical (validator : Validator) : validator.Discreet .identical := by
  have hargs : ∀ {args args' : Arguments}, Arguments.Like .identical args args' → args = args' := by
    intro args args' h
    induction h with
    | nil => rfl
    | cons hfirst _ ih =>
      rw [ih]
      cases hfirst with
      | value h => rw [h.1]
      | predicate => rfl
  obtain ⟨check, message, presence⟩ := validator
  refine ⟨fun v v' args args' hv hlike => ?_, ?_⟩
  · rw [hv.1, hargs hlike]
  · cases message with
    | text s => exact .text s
    | computed hook =>
      refine .computed fun r r' args args' hr hlike => ?_
      have hrecords : r = r' := Value.object.inj hr.1
      rw [hrecords, hargs hlike]

end Validator

/-- The validators of an engine do not tell like values apart. -/
def Engine.Discreet {σ : Type} (engine : Engine σ) (E : Value.Likeness) : Prop :=
  ∀ name validator, engine.validators.get? name = some validator → validator.Discreet E

/-- The built-in validators are discreet under every likeness. -/
theorem KnownValidators.discreet_builtin {E : Value.Likeness} {name : String}
    {validator : Validator} (h : builtin.get? name = some validator) : validator.Discreet E :=
  Validator.discreet_of_mem (Registry.mem_of_get?_ofPairs h)

end Vetting
