import Vetting.Proofs.LikeFields

/-!
# Equal rules

Validation goes through the fields of a rule map, the validators of a field and its modules in the
order in which they are written. Equality of rules looks at none of these orders, so that equal
rules need not validate alike (`validate_equal_unlike`). Equal rules that are written alike do: on
like values they end in equal outcomes or in the same error, and they leave equal values
(`validate_likeRules`). The rules inside rules are reached by induction on the weight of rules, and
the fields that a field depends on by induction on the declared fields that are not in progress.
-/

set_option autoImplicit false

namespace Vetting

/-- Like values are related in keeping with their records. -/
theorem Value.Likeness.valuesRelated (E : Value.Likeness) :
    Engine.ValuesRelated E.rel E.Records where
  isTruthy _ _ h := (E.unordered h).isTruthy_eq
  kind _ _ h := (E.unordered h).kind_eq
  record _ _ := E.records_recordOf
  withRecord _ _ _ _ := E.rel_withRecord
  single _ _ := Value.Likeness.Records.single wholeField
  read _ _ hr := hr.read wholeField

/-- Equal reports on different fields make equal outcomes. -/
theorem Engine.outcomesRelated_same {names : List String} (hdistinct : names.Nodup) :
    OutcomesRelated (fun a b => a.same b = true) (fun a b => a.same b = true) names where
  valid := by rw [Outcome.same]
  fields reports reports' h hnames := by
    have hpaired := h.paired (hdistinct.sublist hnames)
    rw [Outcome.same, Report.sameAll_of_paired hpaired, Bool.and_true]
    exact beq_iff_eq.2 hpaired.length_eq
  errors report report' h := by
    obtain ⟨errors, aux⟩ := report
    rw [Report.same, Bool.and_eq_true] at h
    rw [Outcome.same]
    exact h.1

namespace Engine

variable {σ : Type} {E : Value.Likeness} {engine : Engine σ} {nested : NestedValidation σ}
  {bound : Nat}

/-- Like rules validate like values alike, if nested runs over lighter like rules do. -/
theorem Impartial.validateBy (h : engine.Impartial E nested bound) {rules rules' : Rules}
    (hlike : rules.Like E rules') (hbound : rules.weight = bound) (force : Bool) :
    Outcome.Corresponds E (engine.validateBy nested rules force)
      (engine.validateBy nested rules' force) := by
  have hbelow : ∀ field rule, (field, rule) ∈ rules.members → rule.NestsBelow field bound :=
    fun field rule hmem name config hconfig inner hinner =>
      hbound ▸ nestedRules_weight_lt hmem hconfig hinner
  have hstep : InStep (fun _ _ => True) engine engine := ⟨rfl, fun _ _ _ _ => trivial⟩
  have hread : ∀ d r r', E.Records r r' →
      Argument.Like E (.value (r.read d)) (.value (r'.read d)) :=
    fun d _ _ hr => .value (hr.read d)
  cases hlike with
  | fields hrules =>
    refine validateFields_related hstep hread E.valuesRelated ?_
      (outcomesRelated_same hrules.distinct) force
    exact (hrules.mono fun field rule _ hmem hrule =>
      h.judge hrule (hbelow field rule hmem)).parallel
  | whole hrule =>
    exact validateWhole_related hstep hread E.valuesRelated
      (h.judge hrule (hbelow _ _ (List.mem_singleton.2 rfl)))
      (outcomesRelated_same (List.nodup_singleton wholeField)) force

/-- Like rules validate like values alike, by induction on the weight of the rules. -/
theorem validate_corresponds (hmodules : engine.modules = KnownModules.builtin)
    (hdiscreet : engine.Discreet E) {rules rules' : Rules} (hlike : rules.Like E rules')
    (force : Bool) :
    Outcome.Corresponds E (engine.validate rules force) (engine.validate rules' force) := by
  induction hweight : rules.weight using Nat.strong_induction_on
    generalizing rules rules' force with
  | _ n ih =>
    have himpartial : engine.Impartial E engine.validate n :=
      ⟨hmodules, hdiscreet, fun inner inner' hlt hinner => ih _ hlt hinner false rfl⟩
    rw [validate_eq_validateBy hmodules, validate_eq_validateBy hmodules]
    exact himpartial.validateBy hlike hweight force

/-- Equal rules that are written alike validate alike. Let two rule maps give the entries of their
maps in the same order, at every depth, and differ in plain values that are like at most, where
neither the validators of the engine nor the functions in the rules tell like values apart. Then
they are equal, and on like values they end in equal outcomes or in the same error, and leave equal
values. -/
theorem validate_likeRules (engine : Engine σ) (hmodules : engine.modules = KnownModules.builtin)
    (E : Value.Likeness) (hdiscreet : engine.Discreet E) {rules rules' : Rules}
    (hlike : rules.Like E rules') (force : Bool) {v v' : Value} (hv : E.rel v v') (c c' : σ) :
    rules.same rules' = true ∧
    ((∃ outcome outcome' t t', engine.validate rules force ⟨v, c⟩ = .ok outcome t ∧
        engine.validate rules' force ⟨v', c'⟩ = .ok outcome' t' ∧
        outcome.same outcome' = true ∧ t.target.same t'.target = true) ∨
      ∃ e t t', engine.validate rules force ⟨v, c⟩ = .error e t ∧
        engine.validate rules' force ⟨v', c'⟩ = .error e t' ∧
        t.target.same t'.target = true) := by
  refine ⟨hlike.same, ?_⟩
  have hends := validate_corresponds hmodules hdiscreet hlike force ⟨v, c⟩ ⟨v', c'⟩ ⟨hv, trivial⟩
  unfold Run.Matched at hends
  generalize engine.validate rules force ⟨v, c⟩ = ending,
    engine.validate rules' force ⟨v', c'⟩ = ending' at hends ⊢
  cases hends with
  | ok hsame hstores =>
    exact Or.inl ⟨_, _, _, _, rfl, rfl, hsame, (E.unordered hstores.target).same⟩
  | error e hstores => exact Or.inr ⟨e, _, _, rfl, rfl, (E.unordered hstores.target).same⟩
  | excused hexcused => exact hexcused.elim

/-- The rules of an order whose recipient is filled in if there is none, and has to have a city. -/
def recipientRules (recipient : Record) : Rules :=
  .fields [("recipient", .descriptor ⟨.name "notEmptyObject",
    [("defaultValue", .value (.object recipient)),
      ("objectValidator", .value (.object [("city", .string "required")]))]⟩)]

/-- A default value that is written in two ways is like itself. -/
theorem recipientRules_like {recipient recipient' : Record}
    (h : (Value.object recipient).Unordered (.object recipient')) :
    (recipientRules recipient).Like .reordered (recipientRules recipient') := by
  have hinner : Rules.Like .reordered (.fields [("city", .bare (.name "required"))])
      (.fields [("city", .bare (.name "required"))]) :=
    .fields (.cons List.not_mem_nil (.bare (.name "required")) .nil)
  have hconfigs : Fields.Paired (Configuration.Like .reordered "recipient")
      [("defaultValue", .value (.object recipient)),
        ("objectValidator", .value (.object [("city", .string "required")]))]
      [("defaultValue", .value (.object recipient')),
        ("objectValidator", .value (.object [("city", .string "required")]))] := by
    refine .cons (by decide) (.value h fun hname => ?_) (.cons List.not_mem_nil ?_ .nil)
    · exact absurd hname (by decide)
    · exact .value (.of_distinctNames (by decide)) fun _ => .ok hinner
  exact .fields (.cons List.not_mem_nil (.of_modules (.name _) hconfigs) .nil)

/-- A recipient with no city. -/
def cityFirst : Record := [("city", .string ""), ("zip", .string "1")]

/-- The same recipient, written in the other order. -/
def zipFirst : Record := [("zip", .string "1"), ("city", .string "")]

/-- The report on a recipient without a city. -/
def cityMissing : Outcome :=
  .fields [("recipient", ⟨[("objectValidator", .nested (.fields [("city",
    ⟨[("required", .message "This field is required.")], []⟩)]))], []⟩)]

/-- The recipient that is filled in has no city, in whichever order it is written. -/
theorem validate_likeRules_recipient :
    (recipientRules cityFirst).same (recipientRules zipFirst) = true ∧
    (standard : Engine Unit).validate (recipientRules cityFirst) false ⟨.object [], ()⟩ =
      .ok cityMissing ⟨.object [("recipient", .object cityFirst)], ()⟩ ∧
    ∃ outcome t, (standard : Engine Unit).validate (recipientRules zipFirst) false
        ⟨.object [], ()⟩ = .ok outcome t ∧
      cityMissing.same outcome = true ∧
      (Value.object [("recipient", .object cityFirst)]).same t.target = true := by
  have hrun : (standard : Engine Unit).validate (recipientRules cityFirst) false
      ⟨.object [], ()⟩ = .ok cityMissing ⟨.object [("recipient", .object cityFirst)], ()⟩ := by
    with_unfolding_all rfl
  have hrecipients : (Value.object cityFirst).Unordered (.object zipFirst) :=
    .of_perm (by decide) (.swap _ _ _)
  obtain ⟨hsame, hends⟩ := validate_likeRules standard rfl .reordered
    (fun _ _ => KnownValidators.discreet_builtin) (recipientRules_like hrecipients) false
    (Value.Unordered.of_distinctNames (v := .object []) (by decide)) () ()
  rcases hends with ⟨outcome, outcome', t, t', hok, hok', houtcomes, htargets⟩ |
    ⟨e, t, t', herror, -⟩
  · rw [hrun] at hok
    cases hok
    exact ⟨hsame, hrun, outcome', t', hok', houtcomes, htargets⟩
  · rw [hrun] at herror
    cases herror

/-- The rules of a field that has to be there, with these modules. -/
def presenceRules (modules : Fields Configuration) : Rules :=
  .fields [("d", .descriptor ⟨.list ["required"], modules⟩)]

/-- A module that trims a text. -/
def trims : String × Configuration := ("trimValue", .value (.bool true))

/-- A module that replaces a text without a character. -/
def fills : String × Configuration := ("defaultValue", .value (.string "x"))

/-- Two fields, each with a validator of its own name. -/
def fieldRules (first second : String) : Rules :=
  .fields [(first, .bare (.name first)), (second, .bare (.name second))]

/-- One field with two validators. -/
def validatorRules (first second : String) : Rules :=
  .fields [("d", .bare (.specs [(first, .empty), (second, .empty)]))]

/-- One of the two zeros. -/
def signedZero (negative : Bool) : Value :=
  .number (.double ⟨negative, 0, ⟨0, 0, by decide, by decide⟩, by decide +kernel⟩)

/-- The rules of a field that has to equal a zero. -/
def zeroRules (negative : Bool) : Rules :=
  .fields [("d", .bare (.specs [("equalsTo", .ofValues [.literal (signedZero negative)])]))]

/-- The rules of a field that has to equal an object, with a message that names the first member. -/
def firstMemberRules (members : Record) : Rules :=
  .fields [("d", .bare (.specs [("equalsTo", ⟨[.literal (.object members)],
    some (.computed ⟨0, fun _ arguments =>
      ((arguments.value 0).fields?.bind fun members => members.keys.head?).getD ""⟩), none⟩)]))]

/-- The zeros are equal, and a message tells them apart. The kernel runs both, since the sizes of
doubles are too large to unfold. -/
theorem zeroRules_unlike :
    (zeroRules true).same (zeroRules false) = true ∧
    ∃ outcome outcome' t t',
      (standard : Engine Unit).validate (zeroRules true) false ⟨.object [("d", .ofInt 1)], ()⟩ =
        .ok outcome t ∧
      (standard : Engine Unit).validate (zeroRules false) false ⟨.object [("d", .ofInt 1)], ()⟩ =
        .ok outcome' t' ∧
      outcome.same outcome' = false := by
  have hdiffer : (match
      (standard : Engine Unit).validate (zeroRules true) false ⟨.object [("d", .ofInt 1)], ()⟩,
      (standard : Engine Unit).validate (zeroRules false) false ⟨.object [("d", .ofInt 1)], ()⟩ with
    | .ok outcome _, .ok outcome' _ => outcome.same outcome' == false
    | _, _ => false) = true := by decide +kernel
  refine ⟨by decide +kernel, ?_⟩
  split at hdiffer
  · next hrun hrun' => exact ⟨_, _, _, _, hrun, hrun', beq_iff_eq.1 hdiffer⟩
  · cases hdiffer

/-- Equal rules need not validate alike, since equality does not look at the order in which the
entries of a map take effect. A text of blanks is trimmed and then replaced, or not replaced and
then trimmed; the first unknown validator ends the run, in the order of the fields and in that of
the validators of a field; a message tells the two zeros apart; and a function of the author of the
rules may look at the order of members. -/
theorem validate_equal_unlike :
    ((presenceRules [trims, fills]).same (presenceRules [fills, trims]) = true ∧
      (standard : Engine Unit).validate (presenceRules [trims, fills]) false
          ⟨.object [("d", .string "  ")], ()⟩ =
        .ok .valid ⟨.object [("d", .string "x")], ()⟩ ∧
      (standard : Engine Unit).validate (presenceRules [fills, trims]) false
          ⟨.object [("d", .string "  ")], ()⟩ =
        .ok (.fields [("d", ⟨[("required", .message "This field is required.")], []⟩)])
          ⟨.object [("d", .string "")], ()⟩ ∧
      Outcome.valid.same
        (.fields [("d", ⟨[("required", .message "This field is required.")], []⟩)]) = false ∧
      (Value.object [("d", .string "x")]).same (.object [("d", .string "")]) = false) ∧
    ((fieldRules "a" "b").same (fieldRules "b" "a") = true ∧
      (standard : Engine Unit).validate (fieldRules "a" "b") false ⟨.object [], ()⟩ =
        .error (.unknownValidator "a") ⟨.object [], ()⟩ ∧
      (standard : Engine Unit).validate (fieldRules "b" "a") false ⟨.object [], ()⟩ =
        .error (.unknownValidator "b") ⟨.object [], ()⟩) ∧
    ((validatorRules "a" "b").same (validatorRules "b" "a") = true ∧
      (standard : Engine Unit).validate (validatorRules "a" "b") false ⟨.object [], ()⟩ =
        .error (.unknownValidator "a") ⟨.object [], ()⟩ ∧
      (standard : Engine Unit).validate (validatorRules "b" "a") false ⟨.object [], ()⟩ =
        .error (.unknownValidator "b") ⟨.object [], ()⟩) ∧
    ((zeroRules true).same (zeroRules false) = true ∧
      ∃ outcome outcome' t t',
        (standard : Engine Unit).validate (zeroRules true) false ⟨.object [("d", .ofInt 1)], ()⟩ =
          .ok outcome t ∧
        (standard : Engine Unit).validate (zeroRules false) false ⟨.object [("d", .ofInt 1)], ()⟩ =
          .ok outcome' t' ∧
        outcome.same outcome' = false) ∧
    ((firstMemberRules cityFirst).same (firstMemberRules zipFirst) = true ∧
      (standard : Engine Unit).validate (firstMemberRules cityFirst) false
          ⟨.object [("d", .ofInt 1)], ()⟩ =
        .ok (.fields [("d", ⟨[("equalsTo", .message "city")], []⟩)])
          ⟨.object [("d", .ofInt 1)], ()⟩ ∧
      (standard : Engine Unit).validate (firstMemberRules zipFirst) false
          ⟨.object [("d", .ofInt 1)], ()⟩ =
        .ok (.fields [("d", ⟨[("equalsTo", .message "zip")], []⟩)])
          ⟨.object [("d", .ofInt 1)], ()⟩) := by
  refine ⟨⟨?_, ?_, ?_, ?_, ?_⟩, ⟨?_, ?_, ?_⟩, ⟨?_, ?_, ?_⟩, zeroRules_unlike, ⟨?_, ?_, ?_⟩⟩ <;>
    with_unfolding_all rfl

end Engine

end Vetting
