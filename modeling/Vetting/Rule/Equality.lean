import Vetting.Rule.Canonical

/-!
# Equality of rules

Rules are equal when they are written alike: maps without regard to order, lists with, values as
values are compared, and functions by their identities. `Rules.same` is this test, and each part
of a rule has its own.
-/

set_option autoImplicit false

namespace Vetting

/-- Whether two hooks have one identity. -/
def Hook.same {α : Type} (a b : Hook α) : Bool := a.id == b.id

/-- Equality of optional parts. -/
def sameOption {α : Type} (same : α → α → Bool) : Option α → Option α → Bool
  | none, none => true
  | some a, some b => same a b
  | _, _ => false

/-- Equality of lists, place by place. -/
def sameList {α : Type} (same : α → α → Bool) : List α → List α → Bool
  | [], [] => true
  | a :: as, b :: bs => same a b && sameList same as bs
  | _, _ => false

/-- Equality of maps without regard to order. -/
def Fields.same {α : Type} (same : α → α → Bool) (as bs : Fields α) : Bool :=
  as.length == bs.length && as.all fun entry =>
    match bs.get? entry.1 with
    | some b => same entry.2 b
    | none => false

/-- Equality of parameters. -/
def Param.same : Param → Param → Bool
  | .literal a, .literal b => a.same b
  | .computed a, .computed b => a.same b
  | .dependsOn a, .dependsOn b => a == b
  | .predicate a, .predicate b => a.same b
  | _, _ => false

/-- Equality of messages. -/
def Message.same : Message → Message → Bool
  | .text a, .text b => a == b
  | .computed a, .computed b => a.same b
  | _, _ => false

/-- Equality of expectations. -/
def Expectation.same : Expectation → Expectation → Bool
  | .literal a, .literal b => a == b
  | .computed a, .computed b => a.same b
  | _, _ => false

/-- Equality of specs. -/
def Spec.same (a b : Spec) : Bool :=
  sameList Param.same a.values b.values && sameOption Message.same a.message b.message &&
    sameOption Expectation.same a.expected b.expected

/-- Equality of sets of validators; different shapes are different. -/
def Validators.same : Validators → Validators → Bool
  | .name a, .name b => a == b
  | .list as, .list bs => as == bs
  | .specs as, .specs bs => Fields.same Spec.same as bs
  | _, _ => false

mutual

/-- Equality of configurations. -/
def Configuration.same : Configuration → Configuration → Bool
  | .value a, .value b => a.same b
  | .rules a, .rules b => a.same b
  | .function a, .function b => a.same b
  | _, _ => false

/-- Equality of descriptors. -/
def Descriptor.same : Descriptor → Descriptor → Bool
  | ⟨validators, modules⟩, other =>
    validators.same other.validators && modules.length == other.modules.length &&
      Configuration.sameAll modules other.modules

/-- Every configuration has an equal one of the same name in the other map. -/
def Configuration.sameAll : List (String × Configuration) → Fields Configuration → Bool
  | [], _ => true
  | (name, a) :: rest, bs =>
    (match bs.get? name with
      | some b => a.same b
      | none => false) && Configuration.sameAll rest bs

/-- Equality of field rules. -/
def Rule.same : Rule → Rule → Bool
  | .bare a, .bare b => a.same b
  | .descriptor a, .descriptor b => a.same b
  | _, _ => false

/-- Every field rule has an equal one of the same name in the other map. -/
def Rule.sameAll : List (String × Rule) → Fields Rule → Bool
  | [], _ => true
  | (name, a) :: rest, bs =>
    (match bs.get? name with
      | some b => a.same b
      | none => false) && Rule.sameAll rest bs

/-- Equality of rules. -/
def Rules.same : Rules → Rules → Bool
  | .fields as, .fields bs => as.length == bs.length && Rule.sameAll as bs
  | .whole a, .whole b => a.same b
  | _, _ => false

end

/-- Equality of canonical rules. -/
def CanonicalForm.same (a b : CanonicalForm) : Bool :=
  Fields.same Spec.same a.validators b.validators &&
    Fields.same Configuration.same a.modules b.modules

end Vetting
