import Vetting.Proofs.UnorderedValues
import Vetting.Engine.Validate
import Vetting.Rule.Equality

/-!
# Likenesses of values

A likeness says which values count as like when two runs are compared. It is between the narrowest,
where only the very same value counts, and the widest, where values differ in the order of members
(`Value.Likeness.identical`, `Value.Likeness.reordered`): like values are never further apart than
that, and like records are read and written alike. The parts of a rule are like under a likeness of
values if they are written alike, with like values in the same places, and if the functions in them
do not tell like values apart. Like parts are equal; the converse fails.
-/

set_option autoImplicit false

namespace Vetting

/-- A way in which values of two runs may correspond: like values differ in the order of members at
most, scalars are like themselves, and records are like field by field, also after a write. -/
structure Value.Likeness where
  rel : Value → Value → Prop
  unordered : ∀ {v w}, rel v w → v.Unordered w
  scalar : ∀ v, v.kind ≠ .array → v.kind ≠ .object → rel v v
  empty : rel (.object []) (.object [])
  member : ∀ {r r' : Record} {name v v'}, rel (.object r) (.object r') →
    r.get? name = some v → r'.get? name = some v' → rel v v'
  put : ∀ {r r' : Record} {v v'} (name : String), rel (.object r) (.object r') → rel v v' →
    rel (.object (r.put name v)) (.object (r'.put name v'))

namespace Value.Likeness

/-- The widest likeness: any other order of members counts as like. -/
def reordered : Value.Likeness where
  rel := Value.Unordered
  unordered h := h
  scalar v harray hobject := by
    cases v with
    | null => exact .null
    | bool b => exact .bool b
    | number n => exact .number n
    | string s => exact .string s
    | array items => exact absurd rfl harray
    | object members => exact absurd rfl hobject
  empty := .object List.nodup_nil (.refl _) fun _ _ _ h => nomatch h
  member h hv hv' := by
    cases h with
    | object distinct names each => exact each _ _ _ hv hv'
  put name h hv := h.put name hv

/-- The narrowest likeness: only the very same value counts as like. -/
def identical : Value.Likeness where
  rel v w := v = w ∧ v.Unordered v
  unordered h := h.1 ▸ h.2
  scalar v harray hobject := ⟨rfl, reordered.scalar v harray hobject⟩
  empty := ⟨rfl, reordered.empty⟩
  member h hv hv' := by
    obtain ⟨heq, h⟩ := h
    cases heq
    have hsame := hv.symm.trans hv'
    cases hsame
    exact ⟨rfl, reordered.member h hv hv'⟩
  put name h hv := by
    obtain ⟨heq, h⟩ := h
    obtain ⟨rfl, hv⟩ := hv
    cases heq
    exact ⟨rfl, h.put name hv⟩

variable (E : Value.Likeness)

/-- Two records are like as objects. -/
def Records (r r' : Record) : Prop := E.rel (.object r) (.object r')

/-- Null is like null. -/
theorem null : E.rel .null .null := E.scalar .null (by decide) (by decide)

variable {E}

/-- Like records read alike in every field. -/
theorem Records.read {r r' : Record} (h : E.Records r r') (name : String) :
    E.rel (r.read name) (r'.read name) := by
  have hnames := E.unordered h
  cases hnames with
  | object distinct names each =>
    have hboth := Value.Unordered.isSome_eq names name
    cases hv : r.get? name with
    | none =>
      rw [hv, Option.isSome_none] at hboth
      have hv' : r'.get? name = none := Option.not_isSome_iff_eq_none.1 (by simp [← hboth])
      rw [Fields.read, Fields.read, hv, hv']
      exact E.null
    | some v =>
      rw [hv, Option.isSome_some] at hboth
      obtain ⟨v', hv'⟩ := Option.isSome_iff_exists.1 hboth.symm
      rw [Fields.read, Fields.read, hv, hv']
      exact E.member h hv hv'

/-- Records stay alike when like values are put into one field. -/
theorem Records.put {r r' : Record} {v v' : Value} (h : E.Records r r') (name : String)
    (hv : E.rel v v') : E.Records (r.put name v) (r'.put name v') :=
  E.put name h hv

/-- Records of one field are alike if its values are. -/
theorem Records.single {v v' : Value} (name : String) (hv : E.rel v v') :
    E.Records [(name, v)] [(name, v')] :=
  E.put name E.empty hv

/-- Like values have like fields. -/
theorem records_recordOf {v v' : Value} (h : E.rel v v') :
    E.Records (Engine.recordOf v) (Engine.recordOf v') := by
  have hshape := E.unordered h
  cases hshape with
  | object => exact h
  | _ => exact E.empty

/-- Like records in the place of the fields of like values. -/
theorem rel_withRecord {v v' : Value} {r r' : Record} (h : E.rel v v') (hr : E.Records r r') :
    E.rel (Engine.withRecord v r) (Engine.withRecord v' r') := by
  have hshape := E.unordered h
  cases hshape with
  | object => exact hr
  | _ => exact h

end Value.Likeness

/-! ## The parts of a rule -/

/-- Two arguments are like: plain values that are, or one predicate that does not tell like values
apart. -/
inductive Argument.Like (E : Value.Likeness) : Argument → Argument → Prop where
  | value {v v' : Value} (h : E.rel v v') : Like E (.value v) (.value v')
  | predicate {holds : Value → Bool} (h : ∀ v v', E.rel v v' → holds v = holds v') :
      Like E (.predicate holds) (.predicate holds)

/-- Calls with as many arguments, like place by place. -/
abbrev Arguments.Like (E : Value.Likeness) : Arguments → Arguments → Prop :=
  List.Forall₂ (Argument.Like E)

/-- Two parameters are like: the same parameter, but for plain values that are like; a function does
not tell like records or values apart. -/
inductive Param.Like (E : Value.Likeness) : Param → Param → Prop where
  | literal {v v' : Value} (h : E.rel v v') : Like E (.literal v) (.literal v')
  | computed {hook : Hook (Record → Value)}
      (h : ∀ r r', E.Records r r' → E.rel (hook.run r) (hook.run r')) :
      Like E (.computed hook) (.computed hook)
  | dependsOn (field : String) : Like E (.dependsOn field) (.dependsOn field)
  | predicate {hook : Hook (Value → Bool)}
      (h : ∀ v v', E.rel v v' → hook.run v = hook.run v') :
      Like E (.predicate hook) (.predicate hook)

/-- Two messages are like: one text, or one function that does not tell like records and arguments
apart. -/
inductive Message.Like (E : Value.Likeness) : Message → Message → Prop where
  | text (s : String) : Like E (.text s) (.text s)
  | computed {hook : Hook (Record → Arguments → String)}
      (h : ∀ r r' args args', E.Records r r' → Arguments.Like E args args' →
        hook.run r args = hook.run r' args') :
      Like E (.computed hook) (.computed hook)

/-- Two expectations are like: one truth value, or one function that does not tell like records and
arguments apart. -/
inductive Expectation.Like (E : Value.Likeness) : Expectation → Expectation → Prop where
  | literal (b : Bool) : Like E (.literal b) (.literal b)
  | computed {hook : Hook (Record → Arguments → Bool)}
      (h : ∀ r r' args args', E.Records r r' → Arguments.Like E args args' →
        hook.run r args = hook.run r' args') :
      Like E (.computed hook) (.computed hook)

/-- Two specs are like part by part. -/
structure Spec.Like (E : Value.Likeness) (spec spec' : Spec) : Prop where
  values : List.Forall₂ (Param.Like E) spec.values spec'.values
  message : Option.Rel (Message.Like E) spec.message spec'.message
  expected : Option.Rel (Expectation.Like E) spec.expected spec'.expected

section Parts

variable {E : Value.Likeness} {r r' : Record} {args args' : Arguments}

/-- Like arguments have like values. -/
theorem Argument.Like.toValue {a a' : Argument} (h : a.Like E a') :
    E.rel a.toValue a'.toValue := by
  cases h with
  | value h => exact h
  | predicate => exact E.null

/-- Like calls have like arguments in each place. -/
theorem Arguments.Like.at? (h : Arguments.Like E args args') (index : Nat) :
    Option.Rel (Argument.Like E) (args.at? index) (args'.at? index) := by
  induction h generalizing index with
  | nil => exact .none
  | cons hfirst _ ih =>
    cases index with
    | zero => exact .some hfirst
    | succ index => exact ih index

/-- Like calls have like values in each place. -/
theorem Arguments.Like.value (h : Arguments.Like E args args') (index : Nat) :
    E.rel (args.value index) (args'.value index) := by
  have hat := h.at? index
  unfold Arguments.value
  generalize args.at? index = a, args'.at? index = a' at hat
  cases hat with
  | none => exact E.null
  | some hat => exact hat.toValue

/-- Like messages have one template for like records and calls. -/
theorem Message.Like.template {message message' : Message} (h : message.Like E message')
    (hr : E.Records r r') (hargs : Arguments.Like E args args') :
    message.template r args = message'.template r' args' := by
  cases h with
  | text s => rfl
  | computed h => exact h r r' args args' hr hargs

/-- Like specs expect one result for like records and calls. -/
theorem Spec.Like.expectedResult {spec spec' : Spec} (h : spec.Like E spec')
    (hr : E.Records r r') (hargs : Arguments.Like E args args') :
    spec.expectedResult r args = spec'.expectedResult r' args' := by
  obtain ⟨_, _, expected⟩ := spec
  obtain ⟨_, _, expected'⟩ := spec'
  obtain ⟨-, -, hexpected⟩ := h
  cases hexpected with
  | none => rfl
  | some hexpected =>
    cases hexpected with
    | literal b => rfl
    | computed h => exact h r r' args args' hr hargs

/-- A spec that only says what is expected is like itself. -/
theorem Spec.Like.ofExpected (b : Bool) : (Spec.ofExpected b).Like E (Spec.ofExpected b) :=
  ⟨.nil, .none, .some (.literal b)⟩

/-! ## Like parts are equal -/

/-- Like parameters are the same. -/
theorem Param.Like.same {param param' : Param} (h : param.Like E param') :
    param.same param' = true := by
  cases h with
  | literal h => exact (E.unordered h).same
  | computed => exact beq_self_eq_true _
  | dependsOn field => exact beq_self_eq_true field
  | predicate => exact beq_self_eq_true _

/-- Like messages are the same. -/
theorem Message.Like.same {message message' : Message} (h : message.Like E message') :
    message.same message' = true := by
  cases h with
  | text s => exact beq_self_eq_true s
  | computed => exact beq_self_eq_true _

/-- Like expectations are the same. -/
theorem Expectation.Like.same {expectation expectation' : Expectation}
    (h : expectation.Like E expectation') : expectation.same expectation' = true := by
  cases h with
  | literal b => exact beq_self_eq_true b
  | computed => exact beq_self_eq_true _

/-- Lists are the same if their members are, place by place. -/
theorem sameList_of_forall₂ {α : Type} {R : α → α → Prop} {same : α → α → Bool}
    (hsame : ∀ a b, R a b → same a b = true) {as bs : List α} (h : List.Forall₂ R as bs) :
    sameList same as bs = true := by
  induction h with
  | nil => rfl
  | cons hfirst _ ih => rw [sameList, hsame _ _ hfirst, ih, Bool.and_self]

/-- Optional values are the same if both are missing or both are there and the same. -/
theorem sameOption_of_rel {α : Type} {R : α → α → Prop} {same : α → α → Bool}
    (hsame : ∀ a b, R a b → same a b = true) {a b : Option α} (h : Option.Rel R a b) :
    sameOption same a b = true := by
  cases h with
  | none => rfl
  | some h => exact hsame _ _ h

/-- Like specs are the same. -/
theorem Spec.Like.same {spec spec' : Spec} (h : spec.Like E spec') : spec.same spec' = true := by
  have hvalues : sameList Param.same spec.values spec'.values = true :=
    sameList_of_forall₂ (fun _ _ h => h.same) h.values
  have hmessage : sameOption Message.same spec.message spec'.message = true :=
    sameOption_of_rel (fun _ _ h => h.same) h.message
  have hexpected : sameOption Expectation.same spec.expected spec'.expected = true :=
    sameOption_of_rel (fun _ _ h => h.same) h.expected
  rw [Spec.same, hvalues, hmessage, hexpected, Bool.and_self, Bool.and_self]

end Parts

end Vetting
